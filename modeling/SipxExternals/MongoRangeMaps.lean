import SipxExternals.MongoCollectionMetadata

namespace Mongo.Metadata
open Foundations Foundations.Segments Foundations.Comparisons Foundations.Ranges List
open Foundations.SortedMap (lowerBound upperBound insert_between)
variable {ν : Type} {bson : Bson ν}

theorem woCompare_eq (left right : BSONObj ν) : woCompare bson left right = lexicographic bson.elementCompare left right := by
  induction left generalizing right with
  | nil => cases right <;> rfl
  | cons l left ih =>
    cases right with
    | nil => rfl
    | cons r right =>
      rw [woCompare,lexicographic,ih]
      exact ite_not _ _ _

theorem woCompare_preorder (order : TotalPreorder bson.elementCompare) : TotalPreorder (woCompare bson) := by
  rw [show woCompare bson = lexicographic bson.elementCompare from funext fun l => funext (woCompare_eq l)]
  exact lexicographic_order order

theorem equal_iff : equal bson left right = true ↔ woCompare bson left right = 0 := by
  induction left generalizing right with
  | nil => cases right <;> simp [woCompare,equal]
  | cons l left ih =>
    cases right with
    | nil => simp [woCompare,equal]
    | cons r right =>
      by_cases zero : bson.elementCompare l r = 0
      · simp [woCompare,equal,zero,ih]
      · simp [woCompare,equal,zero]

section
variable {β : Type} [LinearOrder β] {rank : BSONObj ν → β} {before inside after ranges : RangeMap ν}

section
variable (ranked : Ranked (woCompare bson) rank)
include ranked

theorem contains_within (range : Range ν) : rangeContains bson range.1 range.2 key = true ↔ Within rank range key := by
  simp [rangeContains,Within,ranked.ge,ranked.lt]

theorem empty_least (below : rank other < rank key) : key ≠ [] := by
  rintro rfl
  have less := (ranked.lt other []).mpr below
  cases other <;> simp [woCompare] at less

theorem empty_rank (same : rank key = rank []) : key = [] := by
  have zero := (ranked.eq key []).mpr same
  cases key with
  | nil => rfl
  | cons element key => simp [woCompare] at zero

theorem upperBound_split (low : ∀ range ∈ before, rank range.1 ≤ rank key)
    (high : ∀ range ∈ after, rank key < rank range.1) : upperBound (woCompare bson) (before++after) key = before.length := by
  refine findIdx_split ?_ ?_
  · intro range mem
    simpa [ranked.lt] using low range mem
  · intro range mem
    simpa [ranked.lt] using high range mem

omit ranked in
theorem last_entry {earlier : RangeMap ν} (after : RangeMap ν) :
    (earlier.concat last++after)[(earlier.concat last).length-1]? = some last := by
  simp

theorem overlapBounds_split (ranged : Ranged rank (before++(inside++after)))
    (proper : rank lower < rank upper) (low : ∀ range ∈ before, rank range.2 ≤ rank lower)
    (middle : ∀ range ∈ inside, rank lower < rank range.2 ∧ rank range.1 < rank upper)
    (high : ∀ range ∈ after, rank lower < rank range.2 ∧ rank upper ≤ rank range.1) :
    rangeMapOverlapBounds bson (before++(inside++after)) lower upper = (before.length,before.length+inside.length) := by
  obtain ⟨left,right,_⟩ := ranged_append.mp ranged
  have starts : ∀ range ∈ before, rank range.1 < rank lower := fun range mem =>
    lt_of_lt_of_le (left.proper range mem) (low range mem)
  have bound : ∀ {front back : RangeMap ν} {key : BSONObj ν}, (∀ range ∈ front, rank range.1 < rank key) →
      (∀ range ∈ back, rank key ≤ rank range.1) → lowerBound (woCompare bson) (front++back) key = front.length :=
    fun low high => findIdx_split (by simpa [ranked.lt] using low) (by simpa [ranked.lt] using high)
  have top : lowerBound (woCompare bson) (before++(inside++after)) upper = before.length+inside.length := by
    rw [← append_assoc,← length_append]
    refine bound (fun range mem => ?_) fun range mem => (high range mem).2
    cases mem_append.mp mem with
    | inl mem => exact lt_trans (starts range mem) proper
    | inr mem => exact (middle range mem).2
  have stays : lowerBound (woCompare bson) (before++(inside++after)) lower = before.length →
      rangeMapOverlapBounds bson (before++(inside++after)) lower upper = (before.length,before.length+inside.length) := by
    intro bottom
    simp only [rangeMapOverlapBounds,top,bottom]
    rcases eq_nil_or_concat before with rfl | ⟨earlier,last,rfl⟩
    · simp
    have ends := low last (by simp)
    have past := (ranked.le last.2 lower).mpr ends
    rw [last_entry]
    simp only [show woCompare bson last.2 lower < 1 by omega,if_true,ite_self]
  cases shape : inside++after with rw [shape] at right top stays
  | nil => exact stays (bound starts (by simp))
  | cons first rest =>
  obtain ⟨proper,_,later⟩ := ranged_cons.mp right
  by_cases below : rank first.1 < rank lower
  · have overlaps : rank lower < rank first.2 := by
      have mem : first ∈ inside++after := by
        rw [shape]
        exact .head _
      cases mem_append.mp mem with
      | inl mem => exact (middle first mem).1
      | inr mem => exact (high first mem).1
    have bottom : lowerBound (woCompare bson) (before++first :: rest) lower = before.length+1 := by
      have first_starts : ∀ range ∈ before++[first], rank range.1 < rank lower := by
        intro range mem
        cases mem_append.mp mem with
        | inl mem => exact starts range mem
        | inr mem =>
          cases mem_singleton.mp mem
          exact below
      have found := bound first_starts fun range mem =>
        le_of_lt (lt_of_lt_of_le overlaps (later range mem))
      simpa using found
    have reaches := (ranked.gt first.2 lower).mpr overlaps
    have fetched : (before++first :: rest)[before.length]? = some first := by simp
    simp only [rangeMapOverlapBounds,top,bottom,Nat.add_sub_cancel,fetched]
    rw [if_neg (by omega),if_neg (by omega)]
  · refine stays (bound starts ?_)
    intro range mem
    have above := not_lt.mp below
    cases mem_cons.mp mem with
    | inl same => exact same ▸ above
    | inr mem => exact le_trans above (le_trans (le_of_lt proper) (later range mem))

-- What the functions on a map of disjoint ranges come to, by the ranges that overlap the given one.
structure Overlap (bson : Bson ν) (rank : BSONObj ν → β) (ranges : RangeMap ν) (lower upper : BSONObj ν)
    (before inside after : RangeMap ν) : Prop where
  whole : ranges = before++(inside++after)
  low : ∀ range ∈ before, rank range.2 ≤ rank lower
  middle : ∀ range ∈ inside, rank lower < rank range.2 ∧ rank range.1 < rank upper
  high : ∀ range ∈ after, rank lower < rank range.2 ∧ rank upper ≤ rank range.1
  bounds : rangeMapOverlapBounds bson ranges lower upper = (before.length,before.length+inside.length)

theorem exists_overlap (ranged : Ranged rank ranges) (proper : rank lower < rank upper) :
    ∃ before inside after, Overlap bson rank ranges lower upper before inside after := by
  obtain ⟨before,inside,after,rfl,low,middle,high⟩ := overlap_split ranged lower upper
  exact ⟨before,inside,after,rfl,low,middle,high,overlapBounds_split ranked ranged proper low middle high⟩

omit ranked in
theorem getRangeMapOverlap_inside (found : Overlap bson rank ranges lower upper before inside after) :
    getRangeMapOverlap bson ranges lower upper = some inside := by
  simp only [getRangeMapOverlap,found.bounds]
  simp [found.whole,take_append]

omit ranked in
theorem rangeMapOverlaps_iff (found : Overlap bson rank ranges lower upper before inside after) :
    rangeMapOverlaps bson ranges lower upper = true ↔ inside ≠ [] := by
  simp [rangeMapOverlaps,found.bounds]

theorem rangeMapContains_held (ranged : Ranged rank ranges)
    (proper : rank lower < rank upper) (contained : rangeMapContains bson ranges lower upper = true) :
    ∃ before held after, ranges = before++held :: after ∧ rank held.1 = rank lower ∧ rank held.2 = rank upper := by
  obtain ⟨before,inside,after,found⟩ := exists_overlap ranked ranged proper
  simp only [rangeMapContains,found.bounds] at contained
  rw [found.whole] at contained
  split at contained
  · cases contained
  rename_i held fetched
  rw [getElem?_append_right (Nat.le_refl _),Nat.sub_self] at fetched
  obtain ⟨rest,shape⟩ : ∃ rest, inside++after = held :: rest := by
    cases hcase : inside++after with
    | nil => simp [hcase] at fetched
    | cons first rest =>
      rw [hcase] at fetched
      cases fetched
      exact ⟨rest,rfl⟩
  simp only [Bool.and_eq_true,decide_eq_true_eq,ranked.eq] at contained
  exact ⟨before,held,rest,by rw [found.whole,shape],contained⟩

theorem eraseKey_held (ranged : Ranged rank (before++held :: after))
    (same : rank held.1 = rank key) : eraseKey bson (before++held :: after) key = before++after := by
  obtain ⟨rest,proper,placed⟩ := ranged_middle.mp ranged
  rw [eraseKey,filter_append,filter_cons_of_neg (by simp [ranked.lt,same]),← filter_append]
  refine filter_eq_self.mpr fun range mem => ?_
  have apart : rank range.1 < rank key ∨ rank key < rank range.1 := by
    rw [← same]
    exact (mem_append.mp mem).imp (fun early => lt_of_lt_of_le (rest.proper range mem) (placed.low range early))
      fun late => lt_of_lt_of_le proper (placed.high range late)
  simpa [ranked.lt] using apart

theorem erase_all (ranged : Ranged rank (before++(inside++after))) :
    inside.foldl (fun ranges range => eraseKey bson ranges range.1) (before++(inside++after)) = before++after := by
  induction inside with
  | nil => rfl
  | cons range inside ih =>
    rw [cons_append] at ranged ⊢
    rw [foldl_cons,eraseKey_held ranked ranged rfl]
    exact ih (ranged_middle.mp ranged).1

theorem assign_held (low : ∀ range ∈ before, rank range.1 < rank key) (same : rank held.1 = rank key) :
    assign bson key value (before++held :: after) = before++(held.1,value) :: after := by
  induction before with
  | nil =>
    rw [nil_append,assign,if_neg (mt (ranked.lt _ _).mp (not_lt.mpr (le_of_eq same.symm))),
      if_neg (mt (ranked.lt _ _).mp (not_lt.mpr (le_of_eq same)))]
    rfl
  | cons range before ih =>
    have below := low range (.head _)
    rw [cons_append,assign,if_pos ((ranked.lt _ _).mpr below),ih (forall_mem_cons.mp low).2]
    rfl

theorem rangeHolds_covers (ranged : Ranged rank ranges) :
    rangeHolds bson ranges key = true ↔ Covers rank ranges key := by
  obtain ⟨before,after,rfl,low,high⟩ := start_split ranged key
  have later := not_covers_later high
  rw [covers_append,or_iff_left later]
  simp only [rangeHolds,upperBound_split ranked low high]
  rcases eq_nil_or_concat before with rfl | ⟨earlier,last,rfl⟩
  · cases after with
    | nil => simp
    | cons range rest =>
      have above := high range (.head _)
      simp [rangeContains,ranked.ge,above]
  · rw [if_pos (by simp),last_entry]
    obtain ⟨left,_,_⟩ := ranged_append.mp ranged
    rw [covers_last left (low last (by simp))]
    exact contains_within ranked last

theorem lowerEntry_split (low : ∀ range ∈ before, rank range.1 ≤ rank key)
    (high : ∀ range ∈ after, rank key < rank range.1) : lowerEntry bson (before++after) key = before.getLast? := by
  simp only [lowerEntry,upperBound_split ranked low high]
  rcases eq_nil_or_concat before with rfl | ⟨earlier,last,rfl⟩
  · simp
  · simp

theorem upperEntry_split (low : ∀ range ∈ before, rank range.1 ≤ rank key)
    (high : ∀ range ∈ after, rank key < rank range.1) : upperEntry bson (before++after) key = after.head? := by
  simp only [upperEntry,upperBound_split ranked low high]
  cases after <;> simp

end

end

structure Disjoint (bson : Bson ν) (ranges : RangeMap ν) : Prop where
  sorted : ranges.Pairwise fun left right => woCompare bson left.1 right.1 < 0
  proper : ∀ range ∈ ranges, woCompare bson range.1 range.2 < 0
  apart : ranges.Pairwise fun left right => ∀ key,
    ¬(rangeContains bson left.1 left.2 key = true ∧ rangeContains bson right.1 right.2 key = true)

theorem disjoint_nil : Disjoint bson [] := by
  refine ⟨.nil,?_,.nil⟩
  intro range mem
  cases mem

theorem disjoint_iff [LinearOrder β] {rank : BSONObj ν → β} {ranges : RangeMap ν} (ranked : Ranked (woCompare bson) rank) :
    Disjoint bson ranges ↔ Ranged rank ranges := by
  constructor
  · intro disjoint
    refine ⟨fun range mem => (ranked.lt _ _).mp (disjoint.proper range mem),?_⟩
    have both := disjoint.sorted.and disjoint.apart
    refine both.imp_of_mem ?_
    rintro left right _ mem ⟨sorted,apart⟩
    by_contra beyond
    have starts := (ranked.lt _ _).mp sorted
    have short := (ranked.lt _ _).mp (disjoint.proper right mem)
    refine apart right.1 ?_
    rw [contains_within ranked,contains_within ranked]
    exact ⟨⟨le_of_lt starts,not_le.mp beyond⟩,le_rfl,short⟩
  · intro ranged
    refine ⟨?_,fun range mem => (ranked.lt _ _).mpr (ranged.proper range mem),?_⟩
    · refine ranged.apart.imp_of_mem ?_
      intro left right mem _ apart
      exact (ranked.lt _ _).mpr (lt_of_lt_of_le (ranged.proper left mem) apart)
    refine (not_within_both ranged).imp ?_
    intro left right disjoint key
    rw [contains_within ranked,contains_within ranked]
    exact disjoint key

section
variable {β : Type} [LinearOrder β] {rank : BSONObj ν → β}

-- The loop keeps disjoint ranges that end before the one at hand, and the keys they hold.
theorem fillLoop_covers (ranked : Ranked (woCompare bson) rank) :
    ∀ {min max : BSONObj ν} {ranges : RangeMap ν}, min ≠ [] → rank min < rank max → Ranged rank ranges →
      (∀ range ∈ ranges, rank range.2 ≤ rank min) → Ranged rank chunks → (∀ chunk ∈ chunks, rank max ≤ rank chunk.1) →
      Ranged rank (fillLoop bson min max ranges chunks) ∧ ∀ key, Covers rank (fillLoop bson min max ranges chunks) key ↔
          Covers rank ranges key ∨ Within rank (min,max) key ∨ Covers rank chunks key := by
  have added : ∀ {min max : BSONObj ν} {ranges : RangeMap ν}, rank min < rank max → Ranged rank ranges →
      (∀ range ∈ ranges, rank range.2 ≤ rank min) →
      SortedMap.insert (woCompare bson) (min,max) ranges = ranges++[(min,max)] ∧ Ranged rank (ranges++[(min,max)]) := by
    intro min max ranges proper ranged ends
    refine ⟨?_,ranged_append.mpr ⟨ranged,ranged_cons.mpr ⟨proper,ranged_nil,by simp⟩,?_⟩⟩
    · have placed : SortedMap.insert (woCompare bson) (min,max) (ranges++[]) = ranges++(min,max) :: [] :=
        insert_between ranked (fun range mem => lt_of_lt_of_le (ranged.proper range mem) (ends range mem)) (by simp)
      simpa using placed
    · intro range mem other single
      cases mem_singleton.mp single
      exact ends range mem
  induction chunks with
  | nil =>
    intro min max ranges named proper ranged ends _ _
    obtain ⟨placed,larger⟩ := added proper ranged ends
    rw [fillLoop,placed]
    exact ⟨larger,fun key => by simp⟩
  | cons chunk rest ih =>
    intro min max ranges named proper ranged ends chunked starts
    obtain ⟨currMin,currMax⟩ := chunk
    obtain ⟨current,chunked,later⟩ := ranged_cons.mp chunked
    have next := starts (currMin,currMax) (.head _)
    rw [fillLoop,if_neg (by simpa using named)]
    by_cases meets : equal bson max currMin = true
    · have same := (ranked.eq max currMin).mp (equal_iff.mp meets)
      rw [if_pos meets]
      have wider : rank max < rank currMax := same ▸ current
      obtain ⟨larger,covers⟩ := ih named (lt_trans proper wider) ranged ends chunked later
      refine ⟨larger,fun key => ?_⟩
      have moved : Within rank (max,currMax) key ↔ Within rank (currMin,currMax) key := by
        simp [Within,same]
      rw [covers,covers_cons,within_joined (le_of_lt proper) (le_of_lt wider),moved,or_assoc]
    rw [if_neg meets]
    obtain ⟨placed,larger⟩ := added proper ranged ends
    have ended : ∀ range ∈ ranges++[(min,max)], rank range.2 ≤ rank currMin := by
      intro range mem
      cases mem_append.mp mem with
      | inl mem => exact le_trans (ends range mem) (le_trans (le_of_lt proper) next)
      | inr mem =>
        cases mem_singleton.mp mem
        exact next
    rw [placed]
    obtain ⟨larger,covers⟩ := ih (empty_least ranked (lt_of_lt_of_le proper next)) current larger ended chunked later
    refine ⟨larger,fun key => ?_⟩
    rw [covers]
    simp [or_assoc]

end

end Mongo.Metadata
