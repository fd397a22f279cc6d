import Mathlib.Data.List.TakeWhile
import SipxExternals.CfengineIteration

namespace Cfengine.Iteration
open Foundations.Odometer List

def others (list : List String) : List String := list.filter (!isNull ·)

-- Blanks only in front, at most one but in the last list, and none in front of a list
-- with more than one other element.
structure Orderly (lists : List (List String)) : Prop where
  leading : ∀ list ∈ lists, Leading isNull list
  once : ∀ list ∈ lists.dropLast, list.count cfNullValue ≤ 1
  alone : lists.Pairwise fun list later => cfNullValue ∈ list → (others later).length = 1

section
variable {list : List String}

theorem isNull_iff : isNull item = true ↔ item = cfNullValue := by simp [isNull]

theorem behind_nil : behind list = [] ↔ ∀ item ∈ list.tail, isNull item = false := by
  cases list with
  | nil => simp [behind]
  | cons first rest => simp [behind,dropWhile_eq_nil_iff]

theorem block_behind (list : List String) : block list++behind list = list := by
  cases list with
  | nil => rfl
  | cons first rest => rw [block,behind,cons_append,takeWhile_append_dropWhile]

theorem behind_orderly (leading : Leading isNull list) (once : list.count cfNullValue ≤ 1) : behind list = [] := by
  rw [behind_nil]
  cases list with
  | nil => simp
  | cons first rest =>
    intro item mem
    cases blank : isNull item with
    | false => rfl
    | true =>
      have before := isNull_iff.mp ((pairwise_cons.mp leading).1 item mem blank)
      have again : 0 < rest.count cfNullValue := count_pos_iff.mpr (isNull_iff.mp blank ▸ mem)
      rw [before,count_cons_self] at once
      omega

theorem behind_once (none : behind list = []) : list.count cfNullValue ≤ 1 := by
  rw [behind_nil] at none
  cases list with
  | nil => simp
  | cons first rest =>
    have clear : rest.count cfNullValue = 0 := by
      rw [count_eq_zero]
      intro mem
      exact absurd (none _ mem) (by simp [isNull])
    rw [count_cons,clear]
    split <;> omega

end

theorem enumerated_single : enumerated [list] = odometer [list] := by
  simp only [enumerated,odometer,spread,flatMap_cons,flatMap_nil,append_nil,map_nil]
  rw [← map_append,block_behind]

theorem enumerated_spread (none : behind list = []) : enumerated (list :: rest) = spread list (enumerated rest) := by
  have whole := block_behind list
  rw [none,append_nil] at whole
  rw [enumerated,none,whole,map_nil,append_nil]

theorem enumerated_odometer (none : ∀ list ∈ lists.dropLast, behind list = []) : enumerated lists = odometer lists := by
  induction lists with
  | nil => rfl
  | cons list rest ih =>
    cases rest with
    | nil => exact enumerated_single
    | cons next rest =>
      obtain ⟨here,later⟩ := forall_mem_cons.mp none
      rw [enumerated_spread here,ih later]
      rfl

-- What is iterated without blanks are the combinations, after those with blanks.
def Sorted (lists : List (List String)) : Prop :=
  Leading (Blank isNull) (enumerated lists) ∧ (enumerated lists).filter (!Blank isNull ·) = odometer (lists.map others)

section
variable {list : List String} {lists rest : List (List String)}

theorem filled_others (filled : ∀ list ∈ lists, ∃ item ∈ list, item ≠ cfNullValue) :
    ∀ list ∈ lists.map others, list ≠ [] := by
  intro list mem
  obtain ⟨source,inside,rfl⟩ := mem_map.mp mem
  obtain ⟨item,found,plain⟩ := filled source inside
  exact ne_nil_of_mem (mem_filter.mpr ⟨found,by simpa [isNull] using plain⟩)

theorem sorted_behind (nonempty : rest ≠ []) (filled : ∀ each ∈ list :: rest, ∃ item ∈ each, item ≠ cfNullValue)
    (sorted : Sorted (list :: rest)) : behind list = [] := by
  obtain ⟨leading,same⟩ := sorted
  have blank : ∀ head : String, Blank isNull (head :: rest.map fun _ => cfNullValue) = true := by
    intro head
    obtain ⟨next,rest,rfl⟩ := exists_cons_of_ne_nil nonempty
    simp [Blank,isNull]
  cases tail : behind list with
  | nil => rfl
  | cons item items =>
    rw [enumerated,tail] at leading same
    generalize (rest.map fun _ => cfNullValue) = nulls at leading same blank
    obtain ⟨_,_,across⟩ := pairwise_append.mp leading
    have first : (spread (block list) (enumerated rest)).filter (!Blank isNull ·) = [] := by
      rw [filter_eq_nil_iff]
      intro combination mem
      simp [across combination mem _ (.head _ ..) (blank item)]
    have second : ((item :: items).map (· :: nulls)).filter (!Blank isNull ·) = [] := by
      rw [filter_eq_nil_iff]
      intro combination mem
      obtain ⟨head,_,rfl⟩ := mem_map.mp mem
      simp [blank]
    have positive := odometer_filled (filled_others filled)
    rw [filter_append,first,second] at same
    rw [← same] at positive
    simp at positive

theorem sorted_cons (filled : ∀ each ∈ list :: rest, ∃ item ∈ each, item ≠ cfNullValue) (none : behind list = []) :
    Sorted (list :: rest) ↔ Sorted rest ∧ Leading isNull list ∧
      (cfNullValue ∈ list → ∀ later ∈ rest, (others later).length = 1) := by
  obtain ⟨here,later⟩ := forall_mem_cons.mp filled
  have good : ∃ item ∈ list, isNull item = false := by
    obtain ⟨item,mem,plain⟩ := here
    exact ⟨item,mem,by simpa [isNull] using plain⟩
  have blanks : (∃ item ∈ list, isNull item = true) ↔ cfNullValue ∈ list := by
    simp [isNull_iff]
  have left : others list ≠ [] := filled_others filled _ (.head _ ..)
  have filtered : (enumerated (list :: rest)).filter (!Blank isNull ·) =
      spread (others list) ((enumerated rest).filter (!Blank isNull ·)) := by
    rw [enumerated_spread none,spread_filter]
    rfl
  have same : (enumerated (list :: rest)).filter (!Blank isNull ·) = odometer ((list :: rest).map others) ↔
      (enumerated rest).filter (!Blank isNull ·) = odometer (rest.map others) := by
    rw [filtered,map_cons,odometer]
    exact ⟨spread_injective left,fun equal => by rw [equal]⟩
  have positive := odometer_filled (filled_others later)
  have single : odometer (rest.map others) = (enumerated rest).filter (!Blank isNull ·) →
      (((enumerated rest).filter (!Blank isNull ·)).length ≤ 1 ↔ ∀ later ∈ rest, (others later).length = 1) := by
    intro equal
    have singles := odometer_single (rest.map others)
    rw [forall_mem_map] at singles
    rw [← equal,← singles]
    omega
  have whole : odometer (rest.map others) = (enumerated rest).filter (!Blank isNull ·) →
      ∃ combination ∈ enumerated rest, Blank isNull combination = false := by
    intro equal
    rw [equal] at positive
    obtain ⟨combination,mem⟩ := exists_mem_of_length_pos positive
    obtain ⟨inside,clear⟩ := mem_filter.mp mem
    exact ⟨combination,inside,by simpa using clear⟩
  unfold Sorted
  rw [same,enumerated_spread none]
  constructor
  · rintro ⟨leading,equal⟩
    obtain ⟨order,first,few⟩ := (leading_spread good (whole equal.symm)).mp leading
    rw [blanks,single equal.symm] at few
    exact ⟨⟨order,equal⟩,first,few⟩
  · rintro ⟨⟨order,equal⟩,first,few⟩
    rw [← blanks,← single equal.symm] at few
    exact ⟨(leading_spread good (whole equal.symm)).mpr ⟨order,first,few⟩,equal⟩

theorem sorted_orderly (nonempty : lists ≠ []) (filled : ∀ list ∈ lists, ∃ item ∈ list, item ≠ cfNullValue) :
    Sorted lists ↔ Orderly lists := by
  induction lists with
  | nil => exact absurd rfl nonempty
  | cons list rest ih =>
    by_cases last : rest = []
    · subst last
      have filtered := odometer_filter isNull [list]
      have leading : Leading (Blank isNull) (enumerated [list]) ↔ Leading isNull list := by
        rw [enumerated_single]
        simp [odometer,spread,Leading,pairwise_map,Blank]
      unfold Sorted
      rw [leading,enumerated_single]
      constructor
      · rintro ⟨first,_⟩
        exact ⟨by simpa using first,by simp,by simp⟩
      · intro orderly
        exact ⟨orderly.leading list (mem_singleton.mpr rfl),filtered⟩
    obtain ⟨_,later⟩ := forall_mem_cons.mp filled
    have both := ih last later
    constructor
    · intro sorted
      have none := sorted_behind last filled sorted
      obtain ⟨before,first,single⟩ := (sorted_cons filled none).mp sorted
      have orderly := both.mp before
      refine ⟨forall_mem_cons.mpr ⟨first,orderly.leading⟩,?_,pairwise_cons.mpr ⟨?_,orderly.alone⟩⟩
      · rw [dropLast_cons_of_ne_nil last]
        exact forall_mem_cons.mpr ⟨behind_once none,orderly.once⟩
      · exact fun each mem blank => single blank each mem
    rintro ⟨leading,once,alone⟩
    rw [dropLast_cons_of_ne_nil last] at once
    obtain ⟨first,leadings⟩ := forall_mem_cons.mp leading
    obtain ⟨one,ones⟩ := forall_mem_cons.mp once
    obtain ⟨single,alones⟩ := pairwise_cons.mp alone
    have none := behind_orderly first one
    exact (sorted_cons filled none).mpr ⟨both.mpr ⟨leadings,ones,alones⟩,first,
      fun blank each mem => single each mem blank⟩

end

-- Just for lists whose blanks are in order and in at most seven combinations.
theorem iteration_exact (lists : List (List String)) (nonempty : lists ≠ [])
    (filled : ∀ list ∈ lists, ∃ item ∈ list, item ≠ cfNullValue) :
    expandPromiseAndDo lists = some (odometer (lists.map others)) ↔
      Orderly lists ∧ ((odometer lists).filter fun combination => combination.contains cfNullValue).length ≤ 7 := by
  have long : ∀ list ∈ lists, list ≠ [] := by
    intro list member
    obtain ⟨item,inside,_⟩ := filled list member
    exact ne_nil_of_mem inside
  have positive := odometer_filled (filled_others filled)
  have clear : ∀ combination ∈ odometer (lists.map others), Blank isNull combination = false := by
    intro combination member
    have kept : combination ∈ (odometer lists).filter (!Blank isNull ·) := by
      rw [odometer_filter]
      exact member
    simpa using (mem_filter.mp kept).2
  have blank : (fun combination : List String => combination.contains cfNullValue) = Blank isNull := by
    funext combination
    induction combination with
    | nil => rfl
    | cons item rest ih =>
      rw [contains_cons,ih,BEq.comm]
      rfl
  have whole : Orderly lists → enumerated lists = odometer lists := by
    intro orderly
    refine enumerated_odometer ?_
    intro list member
    exact behind_orderly (orderly.leading list (dropLast_subset lists member)) (orderly.once list member)
  rw [expand_enumerated nonempty long,Option.some_inj,
    dropAtMost_exact (ne_nil_of_length_pos positive) clear,← and_assoc,blank]
  change Sorted lists ∧ _ ↔ _
  rw [sorted_orderly nonempty filled]
  constructor
  · rintro ⟨orderly,few⟩
    exact ⟨orderly,whole orderly ▸ few⟩
  · rintro ⟨orderly,few⟩
    exact ⟨orderly,(whole orderly).symm ▸ few⟩

theorem iteration_exact_last : expandPromiseAndDo [["a","b"],["cf_null","c"]] = some [["a","c"],["b","c"]] :=
  (iteration_exact [["a","b"],["cf_null","c"]] (by decide) (by decide)).mpr
    ⟨⟨by decide,by decide,by decide⟩,by decide⟩

-- What is behind a blank never comes with the elements of the other list.
theorem iteration_blanks : expandPromiseAndDo [["a","cf_null","b"],["c","d"]] =
      some [["a","c"],["a","d"],["cf_null","cf_null"],["b","cf_null"]] ∧
    odometer ([["a","cf_null","b"],["c","d"]].map others) = [["a","c"],["b","c"],["a","d"],["b","d"]] := by
  decide

end Cfengine.Iteration
