import SipxExternals.MongoIndexScan

namespace Mongo.BoundsChecker
open Foundations.Segments Foundations.FieldOrder IndexScan List
variable {α : Type}

section
variable {order : α → α → Int} {interval earlier later : Interval α} {v w : α}

-- A value against an interval, in an order in which the interval runs from start to end.
def Behind (order : α → α → Int) (interval : Interval α) (v : α) : Prop :=
  order v interval.start < 0 ∨ (order v interval.start = 0 ∧ interval.startInclusive = false)

def Past (order : α → α → Int) (interval : Interval α) (v : α) : Prop :=
  0 < order v interval.ending ∨ (order v interval.ending = 0 ∧ interval.endInclusive = false)

def Inside (order : α → α → Int) (interval : Interval α) (v : α) : Prop :=
  ¬ Behind order interval v ∧ ¬ Past order interval v

def Oriented (order : α → α → Int) (interval : Interval α) : Prop :=
  order interval.start interval.ending < 0 ∨
  (order interval.start interval.ending = 0 ∧ interval.startInclusive = true ∧ interval.endInclusive = true)

section
variable (total : TotalPreorder order)
include total

theorem past_up (less : order v w ≤ 0) (past : Past order interval v) : Past order interval w := by
  have sign := total.swap interval.ending w
  have other := total.swap w interval.ending
  rcases past with above | ⟨equal,out⟩
  · exact .inl (sign.mp (total.trans_lt ((total.swap interval.ending v).mpr above) less))
  have most := total.trans interval.ending v w (total.equal_symm.mp equal).le less
  by_cases same : order w interval.ending = 0
  · exact .inr ⟨same,out⟩
  · exact .inl (by omega)

theorem past_not_behind (oriented : Oriented order interval) (past : Past order interval v) :
    ¬ Behind order interval v := by
  intro behind
  have reached : order interval.ending v ≤ 0 := by
    have other := total.swap v interval.ending
    rcases past with above | ⟨equal,_⟩
    · omega
    · omega
  rcases oriented with less | ⟨equal,start_in,end_in⟩
  · have above := total.trans_lt less reached
    have sign := total.swap interval.start v
    rcases behind with below | ⟨same,_⟩
    · omega
    · omega
  have start_reached := total.trans interval.start interval.ending v equal.le reached
  have sign := total.swap v interval.start
  rcases behind with below | ⟨_,out⟩
  · omega
  · rw [start_in] at out
    cases out

theorem past_earlier (oriented : Oriented order later)
    (apart : order earlier.ending later.start ≤ 0) (past : Past order later v) : Past order earlier v := by
  have most := total.trans earlier.ending later.start later.ending apart (by rcases oriented with h | h <;> omega)
  rcases past with above | ⟨equal,out⟩
  · have sign := total.swap later.ending v
    exact .inl ((total.swap earlier.ending v).mp (total.lt_trans most (sign.mpr above)))
  rcases oriented with less | ⟨_,_,closed⟩
  · have below := total.lt_trans apart less
    exact .inl ((total.swap earlier.ending v).mp (total.trans_lt below (total.equal_symm.mp equal).le))
  · rw [closed] at out
    cases out

theorem behind_later (oriented : Oriented order earlier)
    (apart : order earlier.ending later.start ≤ 0) (behind : Behind order earlier v) : Behind order later v := by
  have most := total.trans earlier.start earlier.ending later.start (by rcases oriented with h | h <;> omega) apart
  rcases behind with below | ⟨equal,out⟩
  · exact .inl (total.trans_lt below most)
  rcases oriented with less | ⟨_,closed,_⟩
  · exact .inl (total.lt_trans equal.le (total.trans_lt less apart))
  · rw [closed] at out
    cases out

end

end

section
variable {woCompare : α → α → Int} {direction : Int} {interval : Interval α} {intervals : List (Interval α)} {v w : α}

structure Chain (order : α → α → Int) (intervals : List (Interval α)) : Prop where
  oriented : ∀ interval ∈ intervals,Oriented order interval
  apart : intervals.Pairwise fun earlier later => order earlier.ending later.start ≤ 0

theorem sgn_eq (turned : direction = 1 ∨ direction = -1) (x : Int) :
    (sgn x = direction ↔ 0 < direction*x) ∧ (sgn x = -direction ↔ direction*x < 0) ∧ (sgn x = 0 ↔ direction*x = 0) := by
  unfold sgn
  rcases turned with rfl | rfl
  · split
    · omega
    · split <;> omega
  · split
    · omega
    · split <;> omega

theorem intervalCmp_cases (turned : direction = 1 ∨ direction = -1) (interval : Interval α) (v : α) :
    (intervalCmp woCompare interval v direction = .behind ∧ Behind (along direction woCompare) interval v) ∨
    (intervalCmp woCompare interval v direction = .ahead ∧ ¬ Behind (along direction woCompare) interval v ∧
      Past (along direction woCompare) interval v) ∨
    (intervalCmp woCompare interval v direction = .within ∧ Inside (along direction woCompare) interval v) := by
  have starts := sgn_eq turned (woCompare v interval.start)
  have ends := sgn_eq turned (woCompare v interval.ending)
  simp only [Inside,Behind,Past,along]
  unfold intervalCmp
  cases start_in : interval.startInclusive <;> cases end_in : interval.endInclusive <;>
    grind

theorem intervalOriented_oriented (total : TotalPreorder woCompare) (turned : direction = 1 ∨ direction = -1)
    (oriented : intervalOriented woCompare direction interval = true) : Oriented (along direction woCompare) interval := by
  have signs := sgn_eq turned (woCompare interval.ending interval.start)
  have swap := (along_preorder total turned).swap interval.start interval.ending
  have other := (along_preorder total turned).swap interval.ending interval.start
  simp only [intervalOriented,Bool.or_eq_true,Bool.and_eq_true,decide_eq_true_iff] at oriented
  rcases oriented with ⟨⟨equal,start_in⟩,end_in⟩ | ahead
  · have same : along direction woCompare interval.ending interval.start = 0 := signs.2.2.mp equal
    exact .inr ⟨by omega,start_in,end_in⟩
  · have above : 0 < along direction woCompare interval.ending interval.start := signs.1.mp ahead
    exact .inl (by omega)

theorem neighborsOriented_apart (total : TotalPreorder woCompare) (turned : direction = 1 ∨ direction = -1) :
    ∀ {intervals : List (Interval α)},(∀ interval ∈ intervals,Oriented (along direction woCompare) interval) →
    neighborsOriented woCompare direction intervals = true →
    intervals.Pairwise fun earlier later => along direction woCompare earlier.ending later.start ≤ 0
  | [],_,_ => .nil
  | [only],_,_ => pairwise_singleton _ only
  | first :: second :: rest,oriented,neighbors => by
    have order := along_preorder total turned
    simp only [neighborsOriented,Bool.and_eq_true,Bool.or_eq_true,decide_eq_true_iff] at neighbors
    have deeper := neighborsOriented_apart total turned (forall_mem_cons.mp oriented).2
      neighbors.2
    have next : along direction woCompare first.ending second.start ≤ 0 := by
      have signs := sgn_eq turned (woCompare second.start first.ending)
      have swap := order.swap first.ending second.start
      have other := order.swap second.start first.ending
      simp only [along] at swap other ⊢
      omega
    refine pairwise_cons.mpr ⟨fun later mem => ?_,deeper⟩
    rcases mem_cons.mp mem with rfl | more
    · exact next
    have through : along direction woCompare second.start second.ending ≤ 0 := by
      rcases oriented second (by simp) with less | ⟨equal,_⟩
      · exact less.le
      · exact equal.le
    exact order.trans _ _ _ next (order.trans _ _ _ through (rel_of_pairwise_cons deeper more))

theorem isValidFor_chain (total : TotalPreorder woCompare) (turned : direction = 1 ∨ direction = -1)
    {oil : OrderedIntervalList α} (valid : oil.isValidFor woCompare direction = true) :
    Chain (along direction woCompare) oil.intervals := by
  simp only [OrderedIntervalList.isValidFor,Bool.and_eq_true,all_eq_true] at valid
  have oriented := fun interval mem => intervalOriented_oriented total turned (valid.1 interval mem)
  exact ⟨oriented,neighborsOriented_apart total turned oriented valid.2⟩

section
variable {order : α → α → Int} {i j : Nat}

section
variable (total : TotalPreorder order) (chain : Chain order intervals) (here : intervals[i]? = some interval)
include total chain here

theorem past_before
    (past : Past order interval v) (low : j < i) (there : intervals[j]? = some earlier) : Past order earlier v := by
  obtain ⟨i_small,rfl⟩ := List.getElem?_eq_some_iff.mp here
  obtain ⟨j_small,rfl⟩ := List.getElem?_eq_some_iff.mp there
  exact past_earlier total (chain.oriented _ (List.getElem_mem i_small))
    (pairwise_iff_getElem.mp chain.apart j i j_small i_small low) past

theorem behind_after
    (behind : Behind order interval v) (high : i ≤ j) (there : intervals[j]? = some later) : Behind order later v := by
  rcases eq_or_lt_of_le high with rfl | above
  · rw [here] at there
    cases there
    exact behind
  obtain ⟨i_small,rfl⟩ := List.getElem?_eq_some_iff.mp here
  obtain ⟨j_small,rfl⟩ := List.getElem?_eq_some_iff.mp there
  exact behind_later total (chain.oriented _ (List.getElem_mem i_small))
    (pairwise_iff_getElem.mp chain.apart i j i_small j_small above) behind

end

def Admits (order : α → α → Int) (intervals : List (Interval α)) (v : α) : Prop :=
  ∃ interval ∈ intervals,Inside order interval v

theorem gap_not_admitted (total : TotalPreorder order) (chain : Chain order intervals)
    (gone : ∀ j earlier,j < i → intervals[j]? = some earlier → Past order earlier v)
    (ahead : ∀ interval,intervals[i]? = some interval → Behind order interval v) : ¬ Admits order intervals v := by
  rintro ⟨interval,mem,inside⟩
  obtain ⟨j,here⟩ := mem_iff_getElem?.mp mem
  by_cases low : j < i
  · exact inside.2 (gone j interval low here)
  · obtain ⟨small,_⟩ := List.getElem?_eq_some_iff.mp here
    have next := List.getElem?_eq_getElem (show i < intervals.length by omega)
    exact inside.1 (behind_after total chain next (ahead _ next) (by omega) here)

end

inductive Found (order : α → α → Int) (intervals : List (Interval α)) (v : α) : Option (Location × Option Nat) → Prop where
  | ahead (all : ∀ interval ∈ intervals,Past order interval v) : Found order intervals v (some (.ahead,none))
  | within {i : Nat} {found : Interval α} (here : intervals[i]? = some found) (inside : Inside order found v) :
    Found order intervals v (some (.within,some i))
  | behind {i : Nat} {found : Interval α} (here : intervals[i]? = some found) (before : Behind order found v)
    (gone : ∀ (j : Nat) earlier,j < i → intervals[j]? = some earlier → Past order earlier v) :
    Found order intervals v (some (.behind,some i))

theorem findIntervalForField_found (total : TotalPreorder woCompare) (turned : direction = 1 ∨ direction = -1)
    (chain : Chain (along direction woCompare) oil.intervals) (v : α) :
    Found (along direction woCompare) oil.intervals v (findIntervalForField woCompare v oil direction) := by
  have order := along_preorder total turned
  have ahead_iff : ∀ interval ∈ oil.intervals,
      (intervalCmp woCompare interval v direction = .ahead ↔ Past (along direction woCompare) interval v) := by
    intro interval mem
    rcases intervalCmp_cases turned interval v with ⟨cmp,behind⟩ | ⟨cmp,_,past⟩ | ⟨cmp,inside⟩
    · rw [cmp]
      exact ⟨fun wrong => (by cases wrong),fun past => absurd behind (past_not_behind order (chain.oriented _ mem) past)⟩
    · exact ⟨fun _ => past,fun _ => cmp⟩
    · rw [cmp]
      exact ⟨fun wrong => (by cases wrong),fun past => absurd past inside.2⟩
  have falling : oil.intervals.Pairwise fun earlier later =>
      decide (intervalCmp woCompare later v direction = .ahead) = true →
      decide (intervalCmp woCompare earlier v direction = .ahead) = true := by
    refine chain.apart.imp_of_mem fun {earlier later} early_in late_in apart late => ?_
    rw [decide_eq_true_iff,ahead_iff _ late_in] at late
    rw [decide_eq_true_iff,ahead_iff _ early_in]
    exact past_earlier order (chain.oriented _ late_in) apart late
  have place := bisect_boundary falling oil.intervals.length oil.intervals.length 0 le_rfl (Nat.zero_le _)
    (by rw [Nat.zero_add]; exact findIdx_le_length) (by simp)
  simp only [findIntervalForField,place]
  have gone : ∀ j earlier,j < oil.intervals.findIdx (fun interval => !decide (intervalCmp woCompare interval v direction = .ahead)) →
      oil.intervals[j]? = some earlier → Past (along direction woCompare) earlier v := by
    intro j earlier low there
    obtain ⟨small,rfl⟩ := List.getElem?_eq_some_iff.mp there
    have skipped := List.not_of_lt_findIdx low
    rw [Bool.not_eq_false',decide_eq_true_iff] at skipped
    exact (ahead_iff _ (getElem_mem small)).mp skipped
  cases here : oil.intervals[oil.intervals.findIdx fun interval =>
      !decide (intervalCmp woCompare interval v direction = .ahead)]? with
  | none =>
    refine .ahead fun interval mem => ?_
    obtain ⟨j,there⟩ := mem_iff_getElem?.mp mem
    have long := getElem?_eq_none_iff.mp here
    obtain ⟨small,_⟩ := List.getElem?_eq_some_iff.mp there
    exact gone j interval (by omega) there
  | some interval =>
    have reached : intervalCmp woCompare interval v direction ≠ .ahead := by
      obtain ⟨small,rfl⟩ := List.getElem?_eq_some_iff.mp here
      have stop := List.findIdx_getElem (w := small)
      simpa using stop
    rcases intervalCmp_cases turned interval v with ⟨cmp,behind⟩ | ⟨cmp,_⟩ | ⟨cmp,inside⟩
    · dsimp only
      rw [cmp]
      exact .behind here behind gone
    · exact absurd cmp reached
    · dsimp only
      rw [cmp]
      exact .within here inside

end

section
variable {woCompare : α → α → Int} {field : FieldState α} {fields rest : List (FieldState α)} {v w : α}
  {key later values : List α}

-- What a checker never changes: the intervals of its fields and their directions.
abbrev Shape (α : Type) := OrderedIntervalList α × Int

def shape (field : FieldState α) : Shape α := (field.oil,field.expectedDirection)

def orderOf (woCompare : α → α → Int) (s : Shape α) : α → α → Int := along s.2 woCompare

def AdmitsKey (woCompare : α → α → Int) (shapes : List (Shape α)) (key : List α) : Prop :=
  List.Forall₂ (fun s v => Admits (orderOf woCompare s) s.1.intervals v) shapes key

structure Ready (woCompare : α → α → Int) (field : FieldState α) : Prop where
  turned : field.expectedDirection = 1 ∨ field.expectedDirection = -1
  chain : Chain (orderOf woCompare (shape field)) field.oil.intervals
  inside : field.curInterval < field.oil.intervals.length

theorem Ready.order (ready : Ready woCompare field) (total : TotalPreorder woCompare) :
    TotalPreorder (orderOf woCompare (shape field)) := along_preorder total ready.turned

theorem Ready.current (ready : Ready woCompare field) : ∃ interval,field.oil.intervals[field.curInterval]? = some interval :=
  ⟨_,getElem?_eq_getElem ready.inside⟩

def orders (woCompare : α → α → Int) (shapes : List (Shape α)) : List (α → α → Int) := shapes.map (orderOf woCompare)

def Placed (woCompare : α → α → Int) (field : FieldState α) (v : α) : Prop :=
  ∃ interval,field.oil.intervals[field.curInterval]? = some interval ∧ Inside (orderOf woCompare (shape field)) interval v

theorem placed_admits (placed : List.Forall₂ (Placed woCompare) fields key) : AdmitsKey woCompare (fields.map shape) key := by
  refine forall₂_map_left_iff.mpr (placed.imp fun field v in_place => ?_)
  obtain ⟨interval,here,inside⟩ := in_place
  exact ⟨interval,mem_of_getElem? here,inside⟩

inductive Leftmost (woCompare : α → α → Int) (fields : List (FieldState α)) (key : List α) :
    Option (Option (Nat × Location)) → Prop where
  | placed (all : List.Forall₂ (Placed woCompare) fields key) : Leftmost woCompare fields key (some none)
  | behind {n : Nat} {field : FieldState α} {rest : List (FieldState α)} {v : α} {values : List α} {interval : Interval α}
    (before : List.Forall₂ (Placed woCompare) (fields.take n) (key.take n)) (here : fields.drop n = field :: rest)
    (value : key.drop n = v :: values) (current : field.oil.intervals[field.curInterval]? = some interval)
    (low : Behind (orderOf woCompare (shape field)) interval v) :
    Leftmost woCompare fields key (some (some (n,.behind)))
  | ahead {n : Nat} {field : FieldState α} {rest : List (FieldState α)} {v : α} {values : List α}
    (before : List.Forall₂ (Placed woCompare) (fields.take n) (key.take n)) (here : fields.drop n = field :: rest)
    (value : key.drop n = v :: values) : Leftmost woCompare fields key (some (some (n,.ahead)))

theorem findLeftmostProblem_leftmost :
    ∀ {fields : List (FieldState α)} {key : List α},(∀ field ∈ fields,Ready woCompare field) → key.length = fields.length →
    Leftmost woCompare fields key (findLeftmostProblem woCompare fields key)
  | [],[],_,_ => .placed .nil
  | [],_ :: _,_,fits => by cases fits
  | _ :: _,[],_,fits => by cases fits
  | field :: fields,v :: key,ready,fits => by
    have first := ready field (.head _)
    obtain ⟨interval,current⟩ := first.current
    have deeper := findLeftmostProblem_leftmost (fun other mem => ready other (mem_cons_of_mem field mem))
      (Nat.succ.inj fits)
    rw [findLeftmostProblem,current]
    dsimp only
    rcases intervalCmp_cases first.turned interval v with ⟨cmp,behind⟩ | ⟨cmp,_⟩ | ⟨cmp,inside⟩
    · rw [cmp]
      exact .behind .nil rfl rfl current behind
    · rw [cmp]
      exact .ahead .nil rfl rfl
    rw [cmp]
    have in_place : Placed woCompare field v := ⟨interval,current,inside⟩
    generalize findLeftmostProblem woCompare fields key = found at deeper
    cases deeper with
    | placed all => exact .placed (.cons in_place all)
    | behind before here value current low => exact .behind (.cons in_place before) here value current low
    | ahead before here value => exact .ahead (.cons in_place before) here value

theorem startValues_ready : ∀ {fields : List (FieldState α)},(∀ field ∈ fields,Ready woCompare field) →
    ∃ out,startValues fields = some out
  | [],_ => ⟨[],rfl⟩
  | field :: fields,ready => by
    obtain ⟨out,rest⟩ := startValues_ready fun other mem => ready other (mem_cons_of_mem field mem)
    obtain ⟨interval,current⟩ := (ready field (.head _)).current
    rw [startValues,current,rest]
    exact ⟨_,rfl⟩

theorem before_start (total : TotalPreorder woCompare) (ready : Ready woCompare field)
    (gone : ∀ (j : Nat) earlier,j < field.curInterval → field.oil.intervals[j]? = some earlier →
      Past (orderOf woCompare (shape field)) earlier w)
 (starts : startValues (field :: fields) = some out)
    (before : positionCompare (orders woCompare ((field :: fields).map shape)) (w :: later) [] false out < 0)
    (deeper : ∀ outs,startValues fields = some outs →
      positionCompare (orders woCompare (fields.map shape)) later [] false outs < 0 →
      ¬ AdmitsKey woCompare (fields.map shape) later) :
    ¬ AdmitsKey woCompare ((field :: fields).map shape) (w :: later) := by
  intro admits
  obtain ⟨here,others⟩ := forall₂_cons.mp admits
  obtain ⟨interval,current⟩ := ready.current
  rw [startValues,current] at starts
  obtain ⟨outs,rest,rfl⟩ := Option.map_eq_some_iff.mp starts
  have not_behind : ¬ Behind (orderOf woCompare (shape field)) interval w := by
    intro behind
    refine gap_not_admitted (ready.order total) ready.chain gone (fun other same => ?_) here
    rw [current] at same
    cases same
    exact behind
  simp only [Behind,not_or,not_and] at not_behind
  rw [map_cons,orders,map_cons,positionCompare] at before
  split at before
  · exact not_behind.1 before
  rename_i equal
  rw [not_not] at equal
  split at before
  · exact deeper outs rest before others
  · rename_i out
    exact not_behind.2 equal (by simpa using out)

theorem startOver_shape (fields : List (FieldState α)) : (startOver fields).map shape = fields.map shape := by
  simp [startOver,shape]

theorem startOver_ready (ready : ∀ field ∈ fields,Ready woCompare field) :
    ∀ field ∈ startOver fields,Ready woCompare field ∧ field.curInterval = 0 := by
  intro field mem
  obtain ⟨old,old_in,rfl⟩ := mem_map.mp mem
  have good := ready old old_in
  exact ⟨⟨good.turned,good.chain,Nat.zero_lt_of_lt good.inside⟩,rfl⟩

theorem before_first_starts (total : TotalPreorder woCompare) :
    ∀ {fields : List (FieldState α)} {later : List α} {out : List (α × Bool)},
    (∀ field ∈ fields,Ready woCompare field ∧ field.curInterval = 0) → startValues fields = some out →
    positionCompare (orders woCompare (fields.map shape)) later [] false out < 0 →
    ¬ AdmitsKey woCompare (fields.map shape) later
  | [],_,_,_,starts,before => by
    cases starts
    simp [orders,positionCompare] at before
  | field :: fields,[],_,_,_,_ => fun admits => by cases admits
  | field :: fields,w :: later,_,ready,starts,before => by
    obtain ⟨good,first⟩ := ready field (.head _)
    refine before_start total good (fun j _ low => by omega) starts before fun outs rest deeper => ?_
    exact before_first_starts total (fun other mem => ready other (mem_cons_of_mem field mem)) rest deeper

theorem behind_position (interval : Interval α) (current : field.oil.intervals[field.curInterval]? = some interval)
    (behind : Behind (orderOf woCompare (shape field)) interval v)
    (starts : startValues (field :: fields) = some out) (values : List α) :
    positionCompare (orders woCompare ((field :: fields).map shape)) (v :: values) [] false out < 0 := by
  rw [startValues,current] at starts
  obtain ⟨outs,rest,rfl⟩ := Option.map_eq_some_iff.mp starts
  rw [map_cons,orders,map_cons,positionCompare]
  rcases behind with below | ⟨equal,out⟩
  · rw [if_pos below.ne]
    exact below
  · rw [if_neg (not_not.mpr equal),if_neg (by simp [out])]
    omega

theorem space_decided : ∀ {fields : List (FieldState α)} {key : List α},List.Forall₂ (Placed woCompare) fields key →
    ∃ space,spaceLeftToAdvance woCompare fields key = some space
  | _,_,.nil => ⟨false,rfl⟩
  | _,_,.cons ⟨interval,current,_⟩ others => by
    obtain ⟨space,rest⟩ := space_decided others
    rw [spaceLeftToAdvance,current]
    split
    · exact ⟨true,rfl⟩
    dsimp only
    split
    · exact ⟨true,rfl⟩
    · split
      · exact ⟨true,rfl⟩
      · exact ⟨space,rest⟩

theorem no_space (total : TotalPreorder woCompare) (values : List α) :
    ∀ {fields : List (FieldState α)} {key later : List α},(∀ field ∈ fields,Ready woCompare field) →
    List.Forall₂ (Placed woCompare) fields key → spaceLeftToAdvance woCompare fields key = some false →
    fieldCompare (orders woCompare (fields.map shape++more)) (key++values) later ≤ 0 →
    AdmitsKey woCompare (fields.map shape++more) later →
    ∃ others,fieldCompare (orders woCompare more) values others ≤ 0 ∧ AdmitsKey woCompare more others
  | [],[],later,_,_,_,less,admits => ⟨later,less,admits⟩
  | [],_ :: _,_,_,placed,_,_,_ => by cases placed
  | _ :: _,[],_,_,placed,_,_,_ => by cases placed
  | field :: fields,v :: key,[],_,_,_,_,admits => by cases admits
  | field :: fields,v :: key,w :: later,ready,placed,space,less,admits => by
    obtain ⟨⟨interval,current,inside⟩,others⟩ := forall₂_cons.mp placed
    obtain ⟨here,rest⟩ := forall₂_cons.mp admits
    have good := ready field (.head _)
    have order := good.order total
    have signs := sgn_eq good.turned (woCompare v interval.ending)
    rw [spaceLeftToAdvance] at space
    split at space
    · cases space
    rename_i last
    rw [not_not] at last
    rw [current] at space
    simp only at space
    split at space
    · cases space
    split at space
    · cases space
    rename_i closed not_before
    simp only [map_cons,cons_append,orders,fieldCompare] at less
    by_cases equal : orderOf woCompare (shape field) v w = 0
    · rw [if_neg (not_not.mpr equal)] at less
      exact no_space total values (fun other mem => ready other (mem_cons_of_mem field mem)) others
        space less rest
    rw [if_pos equal] at less
    have at_end : orderOf woCompare (shape field) interval.ending v ≤ 0 := by
      have not_past := inside.2
      have not_below : ¬ orderOf woCompare (shape field) v interval.ending < 0 :=
        fun below => not_before (signs.2.1.mpr below).symm
      have sign := order.swap v interval.ending
      omega
    have beyond := order.lt_trans at_end (lt_of_le_of_ne less equal)
    have past : Past (orderOf woCompare (shape field)) interval w := .inl ((order.swap interval.ending w).mp beyond)
    obtain ⟨found,mem,found_inside⟩ := here
    obtain ⟨j,there⟩ := mem_iff_getElem?.mp mem
    obtain ⟨small,_⟩ := List.getElem?_eq_some_iff.mp there
    rcases eq_or_lt_of_le (show j ≤ field.curInterval by simp only [shape] at small; omega) with rfl | low
    · rw [show (shape field).1.intervals = field.oil.intervals from rfl,current] at there
      cases there
      exact absurd past found_inside.2
    · exact absurd (past_before order good.chain current past low there) found_inside.2

-- What checkKey can say of a key. The later keys are those that are not before it.
inductive Outcome (woCompare : α → α → Int) (shapes : List (Shape α)) (key : List α) :
    Option (List (FieldState α) × KeyState α) → Prop where
  | valid {checker : List (FieldState α)} (ready : ∀ field ∈ checker,Ready woCompare field)
    (same : checker.map shape = shapes) (admits : AdmitsKey woCompare shapes key) :
    Outcome woCompare shapes key (some (checker,.valid))
  | advance {checker : List (FieldState α)} {target : Advance α} (ready : ∀ field ∈ checker,Ready woCompare field)
    (same : checker.map shape = shapes)
    (own : positionCompare (orders woCompare shapes) key (key.take target.keyEltsToUse) target.movePastKeyElts target.out < 0)
    (skipped : ∀ later,later.length = key.length → fieldCompare (orders woCompare shapes) key later ≤ 0 →
      positionCompare (orders woCompare shapes) later (key.take target.keyEltsToUse) target.movePastKeyElts target.out < 0 →
      ¬ AdmitsKey woCompare shapes later) :
    Outcome woCompare shapes key (some (checker,.mustAdvance target))
  | done {checker : List (FieldState α)}
    (skipped : ∀ later,later.length = key.length → fieldCompare (orders woCompare shapes) key later ≤ 0 →
      ¬ AdmitsKey woCompare shapes later) :
    Outcome woCompare shapes key (some (checker,.done))

theorem orders_total (total : TotalPreorder woCompare) (ready : ∀ field ∈ fields,Ready woCompare field) :
    ∀ order ∈ orders woCompare (fields.map shape),TotalPreorder order := by
  intro order mem
  obtain ⟨s,s_in,rfl⟩ := mem_map.mp mem
  obtain ⟨field,field_in,rfl⟩ := mem_map.mp s_in
  exact (ready field field_in).order total

theorem advance_outcome (total : TotalPreorder woCompare)
    (ready : ∀ field ∈ left++right,Ready woCompare field) (left_fits : key.length = left.length)
    (right_fits : values.length = right.length)
    (own : past = true ∨ positionCompare (orders woCompare (right.map shape)) values [] false out < 0)
    (skipped : ∀ later,fieldCompare (orders woCompare (right.map shape)) values later ≤ 0 →
      past = true ∨ positionCompare (orders woCompare (right.map shape)) later [] false out < 0 →
      ¬ AdmitsKey woCompare (right.map shape) later) :
    Outcome woCompare ((left++right).map shape) (key++values) (some (left++right,.mustAdvance ⟨left.length,past,out⟩)) := by
  have orders_right : (orders woCompare ((left++right).map shape)).drop left.length = orders woCompare (right.map shape) := by
    simp [orders]
  have values_right : (key++values).drop left.length = values := by
    rw [← left_fits,drop_left]
  have long : left.length ≤ (key++values).length := by
    rw [length_append]
    omega
  have fits : (key++values).length = (orders woCompare ((left++right).map shape)).length := by
    simp only [length_append,orders,length_map]
    omega
  refine .advance ready rfl ?_ fun later lengths less before admits => ?_
  · rw [position_own (orders_total total ready) long fits,orders_right,values_right]
    rcases own with rfl | low
    · simp
    · cases past with
      | true => simp
      | false => simpa using low
  obtain ⟨rest_less,rest_before⟩ := position_later (orders_total total ready) long lengths.symm fits less before
  rw [orders_right,values_right] at rest_less
  rw [orders_right] at rest_before
  refine skipped _ rest_less rest_before ?_
  have dropped := forall₂_drop left.length admits
  rwa [map_append,drop_left' (length_map _)] at dropped

theorem placeLoop_outcome (total : TotalPreorder woCompare) :
    ∀ {fields left : List (FieldState α)} {values key : List α},(∀ field ∈ left++fields,Ready woCompare field) →
    List.Forall₂ (Placed woCompare) left key → values.length = fields.length →
    Outcome woCompare ((left++fields).map shape) (key++values) (placeLoop woCompare left key fields values)
  | [],left,[],key,ready,placed,_ => by
    rw [append_nil,append_nil,placeLoop]
    rw [append_nil] at ready
    exact .valid ready rfl (placed_admits placed)
  | [],_,_ :: _,_,_,_,fits => by cases fits
  | _ :: _,_,[],_,_,_,fits => by cases fits
  | field :: fields,left,v :: values,key,ready,placed,fits => by
    have good := ready field (by simp)
    have order := good.order total
    have others := fun other (mem : other ∈ fields) => ready other (by simp [mem])
    have left_ready := fun other (mem : other ∈ left) => ready other (mem_append_left _ mem)
    have found := findIntervalForField_found total good.turned good.chain v
    rw [placeLoop]
    generalize findIntervalForField woCompare v field.oil field.expectedDirection = result at found
    cases found with
    | @within i interval here inside =>
      obtain ⟨small,_⟩ := List.getElem?_eq_some_iff.mp here
      have moved : Ready woCompare { field with curInterval := i } := ⟨good.turned,good.chain,small⟩
      have moved_ready : ∀ other ∈ (left++[{ field with curInterval := i }])++fields,Ready woCompare other := by
        intro other mem
        simp only [append_assoc,singleton_append,mem_append,mem_cons] at mem
        rcases mem with before | rfl | after
        · exact left_ready other before
        · exact moved
        · exact others other after
      have moved_placed : List.Forall₂ (Placed woCompare) (left++[{ field with curInterval := i }]) (key++[v]) :=
        rel_append placed (.cons ⟨interval,here,inside⟩ .nil)
      have next := placeLoop_outcome total moved_ready moved_placed (Nat.succ.inj fits)
      simpa [shape] using next
    | @behind i interval here before gone =>
      obtain ⟨small,_⟩ := List.getElem?_eq_some_iff.mp here
      have moved : Ready woCompare { field with curInterval := i } := ⟨good.turned,good.chain,small⟩
      have right_ready : ∀ other ∈ { field with curInterval := i } :: startOver fields,Ready woCompare other := by
        exact forall_mem_cons.mpr ⟨moved,fun other after => (startOver_ready others other after).1⟩
      obtain ⟨out,starts⟩ := startValues_ready right_ready
      have same : (left++field :: fields).map shape = (left++{ field with curInterval := i } :: startOver fields).map shape := by
        simp only [map_append,map_cons,startOver_shape]
        rfl
      have low : positionCompare (orders woCompare (({ field with curInterval := i } :: startOver fields).map shape))
          (v :: values) [] false out < 0 := by
        refine behind_position interval ?_ ?_ starts values
        · exact here
        · exact before
      simp only [starts,Option.map_some]
      rw [same]
      refine advance_outcome total (forall_mem_append.mpr ⟨left_ready,right_ready⟩) placed.length_eq.symm ?_ (.inr low)
        fun later less ahead => ?_
      · simpa [startOver] using fits
      cases later with
      | nil => exact fun admits => by cases admits
      | cons w later =>
        have reached : orderOf woCompare (shape field) v w ≤ 0 := field_first less
        refine before_start total moved (fun j earlier low there => past_up order reached (gone j earlier low there)) starts
          (ahead.resolve_left (by simp)) fun outs rest deeper => ?_
        exact before_first_starts total (startOver_ready others) rest deeper
    | ahead all =>
      have nothing : ∀ later,fieldCompare (orders woCompare ((field :: fields).map shape)) (v :: values) later ≤ 0 →
          ¬ AdmitsKey woCompare ((field :: fields).map shape) later := by
        intro later less admits
        cases later with
        | nil => cases admits
        | cons w later =>
          obtain ⟨⟨interval,mem,inside⟩,_⟩ := forall₂_cons.mp admits
          have reached : orderOf woCompare (shape field) v w ≤ 0 := field_first less
          exact inside.2 (past_up order reached (all interval mem))
      dsimp only
      obtain ⟨left_over,space⟩ := space_decided placed
      rw [space]
      cases left_over with
      | false =>
        refine .done fun later lengths less admits => ?_
        rw [map_append] at less admits
        obtain ⟨others,rest_less,rest_admits⟩ := no_space total (v :: values) left_ready placed space less admits
        exact nothing others rest_less rest_admits
      | true =>
        have same : (left++field :: fields).map shape = (left++startOver (field :: fields)).map shape := by
          rw [map_append,map_append,startOver_shape]
        rw [same]
        refine advance_outcome total (fun other mem => ?_) placed.length_eq.symm (by simpa [startOver] using fits)
          (.inl rfl) fun later less _ => ?_
        · rcases mem_append.mp mem with before | after
          · exact left_ready other before
          · exact (startOver_ready (forall_mem_append.mp ready).2 other after).1
        · rw [startOver_shape] at less ⊢
          exact nothing later less

theorem problem_behind
    (before : List.Forall₂ (Placed woCompare) (fields.take n) (key.take n)) (here : fields.drop m = field :: rest)
    (value : key.drop m = v :: values) (current : field.oil.intervals[field.curInterval]? = some interval)
    (low : Behind (orderOf woCompare (shape field)) interval v) : n ≤ m := by
  by_contra early
  have dropped := forall₂_drop m before
  rw [drop_take,drop_take,here,value,show n-m = n-m-1+1 by omega,take_succ_cons,take_succ_cons] at dropped
  obtain ⟨⟨found,at_current,inside⟩,_⟩ := forall₂_cons.mp dropped
  rw [current] at at_current
  cases at_current
  exact inside.1 low

theorem checkKey_outcome (total : TotalPreorder woCompare) (ready : ∀ field ∈ fields,Ready woCompare field)
    (some_field : fields ≠ []) (fits : key.length = fields.length) :
    Outcome woCompare (fields.map shape) key (checkKey woCompare fields key) := by
  have enter : ∀ {checker : List (FieldState α)} {n : Nat},(∀ field ∈ checker,Ready woCompare field) →
      key.length = checker.length → List.Forall₂ (Placed woCompare) (checker.take n) (key.take n) →
      Outcome woCompare (checker.map shape) key
        (placeLoop woCompare (checker.take n) (key.take n) (checker.drop n) (key.drop n)) := by
    intro checker n checker_ready lengths before
    have loop := placeLoop_outcome total (by rwa [take_append_drop]) before
      (show (key.drop n).length = (checker.drop n).length by rw [length_drop,length_drop,lengths])
    rwa [take_append_drop,take_append_drop] at loop
  have leftmost := findLeftmostProblem_leftmost ready fits
  rw [checkKey,if_neg (by simp [some_field,fits])]
  generalize findLeftmostProblem woCompare fields key = found at leftmost
  cases leftmost with
  | placed all => exact .valid ready rfl (placed_admits all)
  | ahead before here value => exact enter ready fits before
  | @behind n field rest v values interval before here value current low =>
    dsimp only
    have fresh := startOver_ready fun old (old_in : old ∈ fields.drop n) => ready old (mem_of_mem_drop old_in)
    generalize made : fields.take n++startOver (fields.drop n) = again
    have same : again.map shape = fields.map shape := by
      rw [← made,map_append,startOver_shape,← map_append,take_append_drop]
    have again_ready : ∀ other ∈ again,Ready woCompare other := by
      rw [← made]
      exact forall_mem_append.mpr ⟨fun other kept => ready other (mem_of_mem_take kept),fun other reset => (fresh other reset).1⟩
    have again_fits : key.length = again.length := by
      rw [fits,← length_map shape,← same,length_map]
    have problem := findLeftmostProblem_leftmost again_ready again_fits
    rw [← same]
    generalize findLeftmostProblem woCompare again key = found at problem
    cases problem with
    | placed all => exact .valid again_ready rfl (placed_admits all)
    | ahead before here value => exact enter again_ready again_fits before
    | @behind m second others w rest_values first again_before again_here again_value again_current again_low =>
      have n_small : n < fields.length := by
        by_contra long
        rw [drop_eq_nil_of_le (by omega)] at here
        cases here
      have front : again.take n = fields.take n := by
        rw [← made,take_left' (by rw [length_take]; omega)]
      have later_problem : n ≤ m := problem_behind (by rwa [front]) again_here again_value again_current again_low
      have right_ready : ∀ other ∈ second :: others,Ready woCompare other ∧ other.curInterval = 0 := by
        intro other mem
        rw [← again_here,← made,drop_append,drop_eq_nil_of_le (by rw [length_take]; omega),nil_append] at mem
        exact fresh other (mem_of_mem_drop mem)
      obtain ⟨out,starts⟩ := startValues_ready fun other mem => (right_ready other mem).1
      have both : again.take m++second :: others = again := by rw [← again_here,take_append_drop]
      have key_both : key.take m++w :: rest_values = key := by rw [← again_value,take_append_drop]
      have counted := congrArg length again_here
      have values_counted := congrArg length again_value
      rw [length_drop] at counted values_counted
      have m_length : (again.take m).length = m := by
        rw [length_cons] at counted
        rw [length_take]
        omega
      dsimp only
      rw [again_here,starts,Option.map_some]
      have advance : Outcome woCompare ((again.take m++second :: others).map shape) (key.take m++w :: rest_values)
          (some (again.take m++second :: others,.mustAdvance ⟨(again.take m).length,false,out⟩)) := by
        refine advance_outcome total (by rwa [both]) again_before.length_eq.symm (by omega)
          (.inr (behind_position first again_current again_low starts rest_values)) fun later less ahead =>
            before_first_starts total right_ready starts (ahead.resolve_left (by simp))
      rwa [both,key_both,m_length] at advance

end

end Mongo.BoundsChecker
