import SipxExternals.NetSnmpBinaryArray

namespace NetSnmp.BinaryArray
open Foundations.Segments
open List hiding after below head insert getElem?_eq_some_iff
variable {α κ : Type}

section
variable {f : α → α → Int} {g : α → κ → Int} {data : List α} {val : α}

def lowerBound (g : α → κ → Int) (data : List α) (val : κ) : Nat := data.findIdx (0 ≤ g · val)

-- An ncompare that is consistent with compare: what it says of an element never falls when
-- the element grows.
structure Consistent (f : α → α → Int) (g : α → κ → Int) : Prop where
  reached : ∀ a b val,f a b ≤ 0 → 0 ≤ g a val → 0 ≤ g b val
  passed : ∀ a b val,f a b ≤ 0 → 0 < g a val → 0 < g b val

theorem compare_consistent (order : TotalPreorder f) : Consistent f f := by
  constructor
  · intro a b val less high
    by_contra low
    have below := order.lt_trans less (by omega : f b val < 0)
    omega
  intro a b val less high
  by_contra low
  have below := order.trans a b val less (by omega)
  omega

theorem lowerBound_iff (val : κ) (consistent : Consistent f g) (ascending : Ascending f data)
    (here : data[k]? = some entry) : 0 ≤ g entry val ↔ lowerBound g data val ≤ k := by
  have rising := ascending_rising ascending fun a b less high =>
    decide_eq_true (consistent.reached a b val less (of_decide_eq_true high))
  rw [lowerBound,← boundary rising here,decide_eq_true_iff]

theorem upperBound_iff (val : κ) (consistent : Consistent f g) (ascending : Ascending f data)
    (here : data[k]? = some entry) : 0 < g entry val ↔ data.findIdx (0 < g · val) ≤ k := by
  have rising := ascending_rising ascending fun a b less high =>
    decide_eq_true (consistent.passed a b val less (of_decide_eq_true high))
  rw [← boundary rising here,decide_eq_true_iff]

theorem searchLoop_found (val : α) (order : TotalPreorder f) (ascending : Ascending f data) :
    ∀ fuel len (s : Search),len ≤ fuel → s.first ≤ lowerBound f data val → lowerBound f data val ≤ s.first+len →
    s.first+len ≤ data.length → (len = 0 → ∃ entry,data[s.middle]? = some entry ∧ s.result = f entry val) →
    ∃ middle result,searchLoop f data val fuel len s = ⟨lowerBound f data val,middle,result⟩ ∧
      ∃ entry,data[middle]? = some entry ∧ result = f entry val := by
  intro fuel
  induction fuel with
  | zero =>
    intro len s enough low high _ seen
    refine ⟨s.middle,s.result,?_,seen (by omega)⟩
    rw [searchLoop,show lowerBound f data val = s.first by omega]
  | succ fuel ih =>
    intro len s enough low high bound seen
    rw [searchLoop]
    by_cases spent : len = 0
    · refine ⟨s.middle,s.result,?_,seen spent⟩
      rw [if_pos spent,show lowerBound f data val = s.first by omega]
    simp only [if_neg spent]
    have inside : s.first+len/2 < data.length := by omega
    have here := getElem?_eq_getElem inside
    have decided := lowerBound_iff val (compare_consistent order) ascending here
    rw [here]
    generalize data[s.first+len/2] = entry at *
    dsimp only
    split
    · rename_i below
      exact ih (len-len/2-1) ⟨s.first+len/2+1,s.first+len/2,f entry val⟩ (by omega) (by simp only; omega)
        (by simp only; omega) (by simp only; omega) fun _ => ⟨entry,here,rfl⟩
    split
    · rename_i not_below equal
      have nothing_before : s.first+len/2 ≤ lowerBound f data val := by
        by_contra before
        have early := getElem?_eq_getElem (show lowerBound f data val < data.length by omega)
        have high := (lowerBound_iff val (compare_consistent order) ascending early).mpr le_rfl
        have less := ascending_getElem ascending early here (by omega)
        have below := order.trans_lt less equal.le
        omega
      refine ⟨s.first+len/2,f entry val,?_,entry,here,rfl⟩
      rw [show lowerBound f data val = s.first+len/2 by omega]
    · rename_i not_below not_equal
      exact ih (len/2) ⟨s.first,s.first+len/2,f entry val⟩ (by omega) (by simp only; omega) (by simp only; omega)
        (by simp only; omega) fun _ => ⟨entry,here,rfl⟩

theorem startLoop_found (val : κ) (consistent : Consistent f g) (ascending : Ascending f data) :
    ∀ fuel len first,len ≤ fuel → first ≤ lowerBound g data val → lowerBound g data val ≤ first+len →
    first+len ≤ data.length → startLoop g data val fuel len first = lowerBound g data val := by
  intro fuel
  induction fuel with
  | zero =>
    intro len first enough low high _
    rw [startLoop]
    omega
  | succ fuel ih =>
    intro len first enough low high bound
    rw [startLoop]
    by_cases spent : len = 0
    · rw [if_pos spent]
      omega
    simp only [if_neg spent]
    have here := getElem?_eq_getElem (show first+len/2 < data.length by omega)
    have decided := lowerBound_iff val consistent ascending here
    rw [here]
    dsimp only
    split
    · exact ih (len-len/2-1) (first+len/2+1) (by omega) (by omega) (by omega) (by omega)
    · exact ih (len/2) first (by omega) (by omega) (by omega) (by omega)

theorem searchExit_entry (seen : data[middle]? = some entry)
    (result_eq : result = f entry val) (here : data[first]? = some found) :
    searchExit f data val isExact ⟨first,middle,result⟩ =
    if f found val = 0 then
      if isExact then some first else if first+1 = data.length then none else some (first+1)
    else if isExact then none else some first := by
  have actual : (if first ≠ middle then f found val else result) = f found val := by
    split
    · rfl
    rename_i same
    rw [not_not] at same
    subst same
    rw [here] at seen
    cases seen
    exact result_eq
  simp [searchExit,here,actual]

theorem searchExit_exact (order : TotalPreorder f) (ascending : Ascending f data)
    (seen : data[middle]? = some entry) (result_eq : result = f entry val) :
    searchExit f data val true ⟨lowerBound f data val,middle,result⟩ = some k ↔
    ∃ found,data[k]? = some found ∧ f found val = 0 := by
  have decided := fun {k : Nat} {entry : α} (here : data[k]? = some entry) =>
    lowerBound_iff val (compare_consistent order) ascending here
  cases here : data[lowerBound f data val]? with
  | none =>
    simp only [searchExit,here,reduceCtorEq,false_iff,not_exists,not_and]
    intro found at_k equal
    have reached := (decided at_k).mp equal.ge
    rw [getElem?_eq_none ((getElem?_eq_none_iff.mp here).trans reached)] at at_k
    cases at_k
  | some found =>
    rw [searchExit_entry seen result_eq here]
    have high := (decided here).mpr le_rfl
    split
    · rename_i equal
      simp only [if_true,Option.some.injEq]
      constructor
      · rintro rfl
        exact ⟨found,here,equal⟩
      rintro ⟨other,at_k,other_equal⟩
      have reached := (decided at_k).mp other_equal.ge
      by_contra apart
      have less := ascending_getElem ascending here at_k (by omega)
      have below := order.trans_lt less other_equal.le
      omega
    rename_i unequal
    simp only [if_true,reduceCtorEq,false_iff,not_exists,not_and]
    intro other at_k other_equal
    have reached := (decided at_k).mp other_equal.ge
    rcases eq_or_lt_of_le reached with rfl | later
    · rw [here] at at_k
      cases at_k
      exact unequal other_equal
    · have less := ascending_getElem ascending here at_k later
      have below := order.trans_lt less other_equal.le
      omega

-- The position of the first element above the key is that of the lower bound, or the next
-- one when the element there is equal.
theorem searchExit_next (order : TotalPreorder f) (ascending : Ascending f data)
    (seen : data[middle]? = some entry) (result_eq : result = f entry val) :
    (searchExit f data val false ⟨lowerBound f data val,middle,result⟩).bind (data[·]?) = data.find? (0 < f · val) := by
  have lower := fun {k : Nat} {entry : α} (here : data[k]? = some entry) =>
    lowerBound_iff val (compare_consistent order) ascending here
  have upper := fun {k : Nat} {entry : α} (here : data[k]? = some entry) =>
    upperBound_iff val (compare_consistent order) ascending here
  rw [find?_eq_getElem?_findIdx]
  generalize data.findIdx (fun entry => decide (0 < f entry val)) = next at upper ⊢
  have ordered : next < data.length → lowerBound f data val ≤ next := by
    intro small
    have at_next := getElem?_eq_getElem small
    exact (lower at_next).mp ((upper at_next).mpr le_rfl).le
  cases here : data[lowerBound f data val]? with
  | none =>
    have long := getElem?_eq_none_iff.mp here
    simp only [searchExit,here,Option.bind_none]
    exact (getElem?_eq_none (by omega)).symm
  | some found =>
    rw [searchExit_entry seen result_eq here]
    have high := (lower here).mpr le_rfl
    have beyond := upper here
    split
    · rename_i equal
      split
      · contradiction
      split
      · rename_i last
        exact (getElem?_eq_none (by omega)).symm
      rename_i not_last
      have small := (getElem?_eq_some_iff.mp here).1
      have after := getElem?_eq_getElem (show lowerBound f data val+1 < data.length by omega)
      have less := ascending_getElem ascending here after (by omega)
      have above : next ≤ lowerBound f data val+1 := by
        refine (upper after).mp ?_
        by_contra low
        have below := order.trans_lt less (Int.not_lt.mp low)
        omega
      rw [Option.bind_some,show next = lowerBound f data val+1 by omega]
    · rename_i unequal
      have small := (getElem?_eq_some_iff.mp here).1
      simp only [Bool.false_eq_true,if_false,Option.bind_some]
      rw [show next = lowerBound f data val by omega]

end

inductive Op (α κ : Type) where
  | insert (entry : α)
  | remove (key : α)
  | find (key : α)
  | findNext (key : Option α)
  | getSubset (key : κ)
  | clear (visit : Bool)
  | forEach
  deriving Repr

inductive Reply (α : Type) where
  | status (ok : Bool)
  | removed (ok : Bool) (save : Option α)
  | found (entry : Option α)
  | subset (entries : Option (List α))
  | visited (entries : List α)
  deriving Repr, DecidableEq

def perform (f : α → α → Int) (g : α → κ → Int) (c : Container α) : Op α κ → Reply α × Container α
  | .insert entry => let r := binaryArrayInsert f c entry; (.status r.1,r.2)
  | .remove key => let r := binaryArrayRemove f c key; (.removed r.1 r.2.1,r.2.2)
  | .find key => let r := binaryArrayGet f c (some key) true; (.found r.1,r.2)
  | .findNext key => let r := binaryArrayGet f c key false; (.found r.1,r.2)
  | .getSubset key => let r := binaryArrayGetSubset f g c key; (.subset r.1,r.2)
  | .clear visit => let r := binaryArrayClear c visit; (.visited r.1,r.2)
  | .forEach => let r := binaryArrayForEach f c true; (.visited r.1,r.2)

def run (f : α → α → Int) (g : α → κ → Int) : Container α → List (Op α κ) → List (Reply α) × Container α
  | c,[] => ([],c)
  | c,op :: ops =>
    let r := perform f g c op
    let rest := run f g r.2 ops
    (r.1 :: rest.1,rest.2)

-- What the operations are for: the elements are a set, and no two of them are equal.
inductive SetStep (f : α → α → Int) (g : α → κ → Int) (S : Set α) : Op α κ → Reply α → Set α → Prop where
  | insert (accepted : ok = true ↔ ∀ e ∈ S,f e entry ≠ 0) (after : ∀ e,e ∈ T ↔ e ∈ S ∨ ok = true ∧ e = entry) :
    SetStep f g S (.insert entry) (.status ok) T
  | remove (failed : ok = false ↔ S.Nonempty ∧ ∀ e ∈ S,f e key ≠ 0)
    (saved : ∀ e,save = some e ↔ e ∈ S ∧ f e key = 0) (after : ∀ e,e ∈ T ↔ e ∈ S ∧ f e key ≠ 0) :
    SetStep f g S (.remove key) (.removed ok save) T
  | find (equal : ∀ e,entry = some e ↔ e ∈ S ∧ f e key = 0) : SetStep f g S (.find key) (.found entry) S
  | findFirst (least : ∀ e,entry = some e ↔ e ∈ S ∧ ∀ other ∈ S,f e other ≤ 0) :
    SetStep f g S (.findNext none) (.found entry) S
  | findNext (least : ∀ e,entry = some e ↔ e ∈ S ∧ 0 < f e key ∧ ∀ other ∈ S,0 < f other key → f e other ≤ 0) :
    SetStep f g S (.findNext (some key)) (.found entry) S
  | getSubset (absent : entries = none ↔ ∀ e ∈ S,g e key ≠ 0)
    (listed : ∀ list,entries = some list → Ascending f list ∧ ∀ e,e ∈ list ↔ e ∈ S ∧ g e key = 0) :
    SetStep f g S (.getSubset key) (.subset entries) S
  | clear (each : visit = true → Distinct f entries ∧ ∀ e,e ∈ entries ↔ e ∈ S) (none : visit = false → entries = []) :
    SetStep f g S (.clear visit) (.visited entries) ∅
  | forEach (ascending : Ascending f entries) (each : ∀ e,e ∈ entries ↔ e ∈ S) :
    SetStep f g S .forEach (.visited entries) S

inductive SetRun (f : α → α → Int) (g : α → κ → Int) : Set α → List (Op α κ) → List (Reply α) → Set α → Prop where
  | nil : SetRun f g S [] [] S
  | cons (step : SetStep f g S op reply T) (rest : SetRun f g T ops replies U) :
    SetRun f g S (op :: ops) (reply :: replies) U

def contents (c : Container α) : Set α := { e | e ∈ c.data }

@[simp] theorem mem_contents : e ∈ contents c ↔ e ∈ c.data := .rfl

section
variable {f : α → α → Int} {g : α → κ → Int} {c : Container α} {key entry : α}

-- An operation that only reads may sort the container, and does no more to it.
structure Keeps (f : α → α → Int) (c after : Container α) : Prop where
  sound : Sound f after
  same : List.Perm after.data c.data

theorem Keeps.contents_eq (keeps : Keeps f c after) : contents after = contents c :=
  Set.ext fun _ => keeps.same.mem_iff

theorem keeps_refl (sound : Sound f c) : Keeps f c c := ⟨sound,.refl c.data⟩

theorem Settled.keeps (settled : Settled f c after) : Keeps f c after := ⟨settled.sound,settled.same⟩

theorem Settled.mem (settled : Settled f c after) (e : α) : e ∈ after.data ↔ e ∈ c.data := settled.same.mem_iff

theorem Settled.first (settled : Settled f c after) (order : TotalPreorder f) :
    after.data[0]? = some entry ↔ entry ∈ c.data ∧ ∀ other ∈ c.data,f entry other ≤ 0 := by
  have first : after.data[0]? = after.data.find? fun _ => true := by
    cases after.data with
    | nil | cons head rest => rfl
  rw [first,find_least order settled.ascending]
  simp [settled.mem]

theorem binarySearch_settled (order : TotalPreorder f) (settled : Settled f c after) (some_data : after.data.length ≠ 0)
    (key : α) (isExact : Bool) :
    ∃ middle result entry,after.data[middle]? = some entry ∧ result = f entry key ∧
    binarySearch f after key isExact =
      (searchExit f after.data key isExact ⟨lowerBound f after.data key,middle,result⟩,after) := by
  obtain ⟨middle,result,found,entry,seen,result_eq⟩ := searchLoop_found key order settled.ascending
    after.data.length after.data.length ⟨0,0,0⟩ le_rfl (Nat.zero_le _)
    (by rw [zero_add]; exact findIdx_le_length) (by simp) fun empty => absurd empty some_data
  refine ⟨middle,result,entry,seen,result_eq,?_⟩
  rw [binarySearch,if_neg some_data,if_neg (by simp [settled.sound.sorting])]
  simp [settled.clean,found]

section
variable (order : TotalPreorder f) (sound : Sound f c)
include order sound

theorem get_nonempty (some_data : c.data.length ≠ 0) (key : α) :
    ∃ after,Settled f c after ∧ after.data.length ≠ 0 ∧ binaryArrayGet f c (some key) isExact =
      ((binarySearch f after key isExact).1.bind (after.data[·]?),after) := by
  have settled := sortArray_settled order sound
  have still : (sortArray f c).data.length ≠ 0 := settled.same.length_eq ▸ some_data
  refine ⟨sortArray f c,settled,still,?_⟩
  obtain ⟨middle,result,entry,seen,result_eq,found⟩ := binarySearch_settled order settled still key isExact
  simp only [binaryArrayGet,if_neg some_data,sort_if_dirty,found]

theorem get_keeps (key : Option α) (isExact : Bool) : Keeps f c (binaryArrayGet f c key isExact).2 := by
  by_cases empty : c.data.length = 0
  · rw [binaryArrayGet,if_pos empty]
    exact keeps_refl sound
  cases key with
  | none =>
    simp only [binaryArrayGet,if_neg empty,sort_if_dirty]
    exact (sortArray_settled order sound).keeps
  | some key =>
    obtain ⟨after,settled,_,got⟩ := get_nonempty order sound empty key
    rw [got]
    exact settled.keeps

theorem get_exact : (binaryArrayGet f c (some key) true).1 = some entry ↔ entry ∈ c.data ∧ f entry key = 0 := by
  by_cases empty : c.data.length = 0
  · simp [binaryArrayGet,length_eq_zero_iff.mp empty]
  obtain ⟨after,settled,still,got⟩ := get_nonempty order sound empty key
  obtain ⟨middle,result,seen_entry,seen,result_eq,found⟩ := binarySearch_settled order settled still key true
  have positions := fun {k : Nat} => searchExit_exact (k := k) order settled.ascending seen result_eq
  rw [got,found,← settled.mem,mem_iff_getElem?,Option.bind_eq_some_iff]
  constructor
  · rintro ⟨k,hit,here⟩
    obtain ⟨other,at_k,equal⟩ := positions.mp hit
    obtain rfl : other = entry := Option.some.inj (at_k.symm.trans here)
    exact ⟨⟨k,here⟩,equal⟩
  · rintro ⟨⟨k,here⟩,equal⟩
    exact ⟨k,positions.mpr ⟨entry,here,equal⟩,here⟩

theorem get_next : (binaryArrayGet f c (some key) false).1 = some entry ↔
    entry ∈ c.data ∧ 0 < f entry key ∧ ∀ other ∈ c.data,0 < f other key → f entry other ≤ 0 := by
  by_cases empty : c.data.length = 0
  · simp [binaryArrayGet,length_eq_zero_iff.mp empty]
  obtain ⟨after,settled,still,got⟩ := get_nonempty order sound empty key
  obtain ⟨middle,result,seen_entry,seen,result_eq,found⟩ := binarySearch_settled order settled still key false
  rw [got,found,searchExit_next order settled.ascending seen result_eq,find_least order settled.ascending]
  simp only [settled.mem,decide_eq_true_iff]

theorem get_first :
    (binaryArrayGet f c none isExact).1 = some entry ↔ entry ∈ c.data ∧ ∀ other ∈ c.data,f entry other ≤ 0 := by
  by_cases empty : c.data.length = 0
  · simp [binaryArrayGet,length_eq_zero_iff.mp empty]
  · have settled := sortArray_settled order sound
    simp only [binaryArrayGet,if_neg empty,sort_if_dirty]
    exact settled.first order

theorem insert_step : Sound f (binaryArrayInsert f c entry).2 ∧
    SetStep f g (contents c) (.insert entry) (.status (binaryArrayInsert f c entry).1) (contents (binaryArrayInsert f c entry).2) := by
  have keeps := get_keeps order sound (some entry) true
  have present : ∀ e,(binaryArrayGet f c (some entry) true).1 = some e ↔ e ∈ c.data ∧ f e entry = 0 :=
    fun _ => get_exact order sound
  simp only [binaryArrayInsert,sound.unique,Bool.false_eq_true,if_false]
  generalize binaryArrayGet f c (some entry) true = got at *
  cases hit : got.1 with
  | some old =>
    obtain ⟨mem,equal⟩ := (present old).mp hit
    refine ⟨keeps.sound,.insert ⟨fun wrong => ?_,fun absent => absurd equal (absent old mem)⟩ fun e => ?_⟩
    · simp at wrong
    · simp [keeps.contents_eq]
  | none =>
    have absent : ∀ e ∈ c.data,f e entry ≠ 0 := by
      intro e mem equal
      have found := (present e).mpr ⟨mem,equal⟩
      rw [hit] at found
      cases found
    simp only [Option.isSome_none,Bool.false_eq_true,if_false]
    refine ⟨⟨keeps.sound.sorting,keeps.sound.unique,?_,fun clean => by simp at clean,?_⟩,
      .insert ⟨fun _ => absent,fun _ => rfl⟩ fun e => ?_⟩
    · refine pairwise_append.mpr ⟨keeps.sound.distinct,pairwise_singleton _ entry,fun a a_in b b_in => ?_⟩
      rw [mem_singleton.mp b_in]
      exact absent a (keeps.same.mem_iff.mp a_in)
    · have room := keeps.sound.room
      simp only [length_append,length_singleton]
      split
      · split
        · omega
        · omega
      · omega
    · simp [keeps.same.mem_iff]

omit order sound in
theorem removeAt_step (order : TotalPreorder f) (settled : Settled f c after)
    (positions : ∀ k,k = index ↔ ∃ found,after.data[k]? = some found ∧ f found key = 0) :
    Sound f (binaryArrayRemoveAt after index).2 ∧
    SetStep f g (contents c) (.remove key) (.removed true (binaryArrayRemoveAt after index).1)
      (contents (binaryArrayRemoveAt after index).2) := by
  obtain ⟨found,here,equal⟩ := (positions index).mp rfl
  have small := (getElem?_eq_some_iff.mp here).1
  have mem : found ∈ c.data := (settled.mem found).mp (mem_of_getElem? here)
  rw [binaryArrayRemoveAt,if_neg (by omega)]
  have part := eraseIdx_sublist after.data index
  refine ⟨⟨settled.sound.sorting,settled.sound.unique,settled.sound.distinct.sublist part,
    fun _ => settled.ascending.sublist part,part.length_le.trans settled.sound.room⟩,.remove ?_ ?_ ?_⟩
  · simp only [Bool.true_eq_false,false_iff,not_and]
    exact fun _ absent => absent found mem equal
  · intro e
    rw [here]
    constructor
    · rintro ⟨⟩
      exact ⟨mem,equal⟩
    rintro ⟨e_in,e_equal⟩
    refine congrArg some (distinct_eq order settled.sound.distinct (mem_of_getElem? here)
      ((settled.mem e).mpr e_in) ?_)
    have one := order.trans found key e equal.le (order.equal_symm.mp e_equal).le
    have other := order.trans e key found e_equal.le (order.equal_symm.mp equal).le
    have swapped := order.swap found e
    omega
  · intro e
    simp only [mem_contents,mem_eraseIdx_iff_getElem?,← settled.mem e]
    constructor
    · rintro ⟨k,apart,at_k⟩
      exact ⟨mem_of_getElem? at_k,fun e_equal => apart ((positions k).mpr ⟨e,at_k,e_equal⟩)⟩
    rintro ⟨e_in,unequal⟩
    obtain ⟨k,at_k⟩ := mem_iff_getElem?.mp e_in
    refine ⟨k,fun same => ?_,at_k⟩
    rw [same,here] at at_k
    cases at_k
    exact unequal equal

theorem remove_step : Sound f (binaryArrayRemove f c key).2.2 ∧
    SetStep f g (contents c) (.remove key) (.removed (binaryArrayRemove f c key).1 (binaryArrayRemove f c key).2.1)
      (contents (binaryArrayRemove f c key).2.2) := by
  by_cases empty : c.data.length = 0
  · rw [binaryArrayRemove,if_pos empty]
    refine ⟨sound,.remove ?_ ?_ ?_⟩ <;> simp [contents,length_eq_zero_iff.mp empty]
  have settled := sortArray_settled order sound
  have still : (sortArray f c).data.length ≠ 0 := settled.same.length_eq ▸ empty
  obtain ⟨middle,result,seen_entry,seen,result_eq,found⟩ := binarySearch_settled order settled still key true
  have positions := fun k => searchExit_exact (k := k) order settled.ascending seen result_eq
  simp only [binaryArrayRemove,if_neg empty,sort_if_dirty,found]
  cases hit : searchExit f (sortArray f c).data key true ⟨lowerBound f (sortArray f c).data key,middle,result⟩ with
  | some index =>
    refine removeAt_step order settled fun k => ?_
    rw [← positions,hit,Option.some.injEq,eq_comm]
  | none =>
    have absent : ∀ e ∈ c.data,f e key ≠ 0 := by
      intro e mem equal
      obtain ⟨k,here⟩ := mem_iff_getElem?.mp ((settled.mem e).mpr mem)
      have missed := (positions k).mpr ⟨e,here,equal⟩
      rw [hit] at missed
      cases missed
    refine ⟨settled.sound,.remove ⟨fun _ => ⟨?_,absent⟩,fun _ => rfl⟩ (fun e => ?_) fun e => ?_⟩
    · obtain ⟨e,mem⟩ := exists_mem_of_length_pos (pos_of_ne_zero empty)
      exact ⟨e,mem⟩
    · simp only [reduceCtorEq,false_iff,not_and]
      exact absent e
    · rw [settled.keeps.contents_eq]
      exact ⟨fun mem => ⟨mem,absent e mem⟩,And.left⟩

end

theorem searchForStart_settled (consistent : Consistent f g) (settled : Settled f c after)
    (some_data : after.data.length ≠ 0) (key : κ) :
    binarySearchForStart f g after key =
    (match after.data[lowerBound g after.data key]? with
      | none => none
      | some entry => if g entry key ≠ 0 then none else some (lowerBound g after.data key),after) := by
  have found := startLoop_found key consistent settled.ascending after.data.length after.data.length 0 le_rfl
    (Nat.zero_le _) (by rw [Nat.zero_add]; exact findIdx_le_length) (by simp)
  simp only [binarySearchForStart,if_neg some_data,settled.clean,Bool.false_eq_true,if_false,found]
  cases after.data[lowerBound g after.data key]? with
  | none | some entry => rfl

theorem run_taken {data : List α} (here : data[start]? = some entry) (holds : p entry = true) :
    (data.drop start).take (((data.drop (start+1)).takeWhile p).length+1) = (data.drop start).takeWhile p := by
  obtain ⟨small,rfl⟩ := getElem?_eq_some_iff.mp here
  rw [drop_eq_getElem_cons small,take_succ_cons,takeWhile_cons_of_pos holds]
  exact congrArg _ (prefix_iff_eq_take.mp ( takeWhile_prefix p)).symm

section
variable (order : TotalPreorder f) (consistent : Consistent f g) (sound : Sound f c)
include order consistent sound

theorem subset_eq (key : κ) :
    ∃ after,Keeps f c after ∧ Ascending f (after.data.filter (g · key = 0)) ∧ binaryArrayGetSubset f g c key =
      (if after.data.filter (g · key = 0) = [] then none else some (after.data.filter (g · key = 0)),after) := by
  by_cases empty : c.data.length = 0
  · have no_data := length_eq_zero_iff.mp empty
    refine ⟨c,keeps_refl sound,by simp [no_data],?_⟩
    simp [binaryArrayGetSubset,no_data]
  have settled := sortArray_settled order sound
  have still : (sortArray f c).data.length ≠ 0 := settled.same.length_eq ▸ empty
  refine ⟨sortArray f c,settled.keeps,settled.ascending.sublist filter_sublist,?_⟩
  have together : (sortArray f c).data.filter (g · key = 0) =
      ((sortArray f c).data.drop (lowerBound g (sortArray f c).data key)).takeWhile (g · key = 0) :=
    filter_zero (settled.ascending.imp fun less =>
      ⟨consistent.reached _ _ key less.le,consistent.passed _ _ key less.le⟩)
  simp only [binaryArrayGetSubset,if_neg empty,sort_if_dirty,searchForStart_settled consistent settled still]
  rw [together]
  cases here : (sortArray f c).data[lowerBound g (sortArray f c).data key]? with
  | none => simp [drop_eq_nil_iff.mpr (getElem?_eq_none_iff.mp here)]
  | some entry =>
    obtain ⟨small,at_start⟩ := getElem?_eq_some_iff.mp here
    by_cases equal : g entry key = 0
    · have taken := run_taken (p := fun entry => g entry key = 0) here (decide_eq_true equal)
      simp only [equal,ne_eq,not_true,if_false,taken]
      rw [drop_eq_getElem_cons small,at_start,takeWhile_cons_of_pos (by simpa using equal)]
      rfl
    · rw [drop_eq_getElem_cons small,at_start,takeWhile_cons_of_neg (by simpa using equal)]
      simp [equal]

theorem subset_step (key : κ) : Sound f (binaryArrayGetSubset f g c key).2 ∧
    SetStep f g (contents c) (.getSubset key) (.subset (binaryArrayGetSubset f g c key).1)
      (contents (binaryArrayGetSubset f g c key).2) := by
  obtain ⟨after,keeps,ascending,got⟩ := subset_eq order consistent sound key
  rw [got,keeps.contents_eq]
  refine ⟨keeps.sound,.getSubset ?_ fun list listed => ?_⟩
  · simp only [ite_eq_left_iff,reduceCtorEq,imp_false,not_not,filter_eq_nil_iff,decide_eq_true_iff,mem_contents,
      keeps.same.mem_iff,ne_eq]
  split at listed
  · cases listed
  · cases listed
    refine ⟨ascending,fun e => ?_⟩
    simp [keeps.same.mem_iff]

theorem perform_step : Sound f (perform f g c op).2 ∧
    SetStep f g (contents c) op (perform f g c op).1 (contents (perform f g c op).2) := by
  cases op with
  | insert entry => exact insert_step order sound
  | remove key => exact remove_step order sound
  | find key =>
    have keeps := get_keeps order sound (some key) true
    simp only [perform,keeps.contents_eq]
    exact ⟨keeps.sound,.find fun _ => get_exact order sound⟩
  | findNext key =>
    have keeps := get_keeps order sound key false
    simp only [perform,keeps.contents_eq]
    cases key with
    | none => exact ⟨keeps.sound,.findFirst fun _ => get_first order sound⟩
    | some key => exact ⟨keeps.sound,.findNext fun _ => get_next order sound⟩
  | getSubset key => exact subset_step order consistent sound key
  | clear visit =>
    have none_left : contents (binaryArrayClear c visit).2 = ∅ := Set.ext fun _ => by simp [binaryArrayClear]
    simp only [perform,none_left]
    refine ⟨⟨sound.sorting,sound.unique,.nil,fun _ => .nil,Nat.zero_le _⟩,.clear ?_ ?_⟩
    · rintro rfl
      exact ⟨sound.distinct,fun _ => .rfl⟩
    · rintro rfl
      rfl
  | forEach =>
    have settled := sortArray_settled order sound
    simp only [perform,binaryArrayForEach,Bool.true_and,sort_if_dirty,settled.keeps.contents_eq]
    exact ⟨settled.sound,.forEach settled.ascending settled.mem⟩

end

theorem run_sound (order : TotalPreorder f) (consistent : Consistent f g) :
    ∀ (ops : List (Op α κ)) (c : Container α),Sound f c →
    Sound f (run f g c ops).2 ∧ SetRun f g (contents c) ops (run f g c ops).1 (contents (run f g c ops).2)
  | [],_,sound => ⟨sound,.nil⟩
  | op :: ops,c,sound => by
    obtain ⟨sound_next,step⟩ := perform_step order consistent sound
    obtain ⟨sound_end,rest⟩ := run_sound order consistent ops _ sound_next
    exact ⟨sound_end,.cons step rest⟩

theorem new_container_sound (f : α → α → Int) : Sound f containerGetBinaryArray :=
  ⟨rfl,rfl,.nil,fun _ => .nil,le_rfl⟩

end

def sampleOps : List (Op Int Int) :=
  [.insert 5,.insert 2,.insert 9,.insert 5,.findNext (some 2),.find 4,.remove 2,.remove 2,.forEach]

end NetSnmp.BinaryArray
