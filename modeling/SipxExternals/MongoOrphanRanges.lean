import SipxExternals.MongoChunkClones

namespace Mongo.Metadata
open Foundations.Segments Foundations.Ranges
open BsonCompare (Mixed double53 double53Later)
variable {ν : Type} {bson : Bson ν}

section
variable {β : Type} [LinearOrder β] {rank : BSONObj ν → β} {ranges : RangeMap ν} {lookupKey bound : BSONObj ν}

section
variable (ranked : Ranked (woCompare bson) rank) (ranged : Ranged rank ranges)
include ranked ranged

theorem overlapEnd_some (found : overlapEnd bson (lowerEntry bson ranges lookupKey) lookupKey = some next) :
    rank lookupKey < rank next ∧
    (∀ key, rank lookupKey ≤ rank key → rank key < rank next → Covers rank ranges key) ∧
    ∃ range ∈ ranges, range.2 = next := by
  obtain ⟨before,after,rfl,low,high⟩ := start_split ranged lookupKey
  rw [lowerEntry_split ranked low high] at found
  rcases List.eq_nil_or_concat before with rfl | ⟨earlier,last,rfl⟩
  · cases found
  rw [List.concat_eq_append,List.getLast?_concat] at found
  simp only [overlapEnd] at found
  split at found
  · rename_i beyond
    cases found
    have starts := low last (by simp)
    have mem : last ∈ earlier.concat last++after := by simp
    refine ⟨(ranked.gt _ _).mp beyond,fun key least less => ?_,last,mem,rfl⟩
    exact ⟨last,mem,le_trans starts least,less⟩
  · cases found

theorem overlapEnd_none (missing : overlapEnd bson (lowerEntry bson ranges lookupKey) lookupKey = none) :
    ¬Covers rank ranges lookupKey := by
  obtain ⟨before,after,rfl,low,high⟩ := start_split ranged lookupKey
  rw [lowerEntry_split ranked low high] at missing
  rw [covers_append,or_iff_left (not_covers_later high)]
  rcases List.eq_nil_or_concat before with rfl | ⟨earlier,last,rfl⟩
  · exact covers_nil
  obtain ⟨left,_,_⟩ := ranged_append.mp ranged
  rw [covers_last left (low last (by simp))]
  rw [List.concat_eq_append,List.getLast?_concat] at missing
  simp only [overlapEnd] at missing
  split at missing
  · cases missing
  · rename_i short
    rintro ⟨_,ends⟩
    exact short ((ranked.gt _ _).mpr ends)

end

structure Raised (rank : BSONObj ν → β) (ranges : RangeMap ν) (lookupKey bound raised : BSONObj ν) : Prop where
  above : rank bound ≤ rank raised
  below : rank bound ≤ rank lookupKey → rank raised ≤ rank lookupKey
  uncovered : ∀ key, rank raised ≤ rank key → rank key ≤ rank lookupKey → ¬Covers rank ranges key
  stopped : rank bound < rank raised → ∀ key, rank key < rank raised →
    ∃ stop, rank key ≤ rank stop ∧ rank stop < rank raised ∧ Covers rank ranges stop

section
variable (ranked : Ranked (woCompare bson) rank) (ranged : Ranged rank ranges) (outside : ¬Covers rank ranges lookupKey)
include ranked ranged outside

theorem raised_lower : Raised rank ranges lookupKey bound (raised bson bound (lowerEntry bson ranges lookupKey)) := by
  obtain ⟨before,after,rfl,low,high⟩ := start_split ranged lookupKey
  rw [lowerEntry_split ranked low high]
  have later : ∀ key, rank key ≤ rank lookupKey → ¬Covers rank after key := fun key most =>
    not_covers_later fun range mem => lt_of_le_of_lt most (high range mem)
  rcases List.eq_nil_or_concat before with rfl | ⟨earlier,last,rfl⟩
  · refine ⟨le_rfl,id,?_,fun wrong => absurd wrong (lt_irrefl _)⟩
    intro key _ most
    rw [covers_append,or_iff_left (later key most)]
    exact covers_nil
  obtain ⟨left,_,_⟩ := ranged_append.mp ranged
  rw [List.concat_eq_append] at left outside low ⊢
  obtain ⟨_,_,between⟩ := ranged_append.mp left
  have proper := left.proper last (by simp)
  have starts := low last (by simp)
  have ended : rank last.2 ≤ rank lookupKey := by
    by_contra beyond
    exact outside ⟨last,by simp,starts,not_le.mp beyond⟩
  have past : ∀ range ∈ earlier++[last], rank range.2 ≤ rank last.2 := by
    intro range mem
    cases List.mem_append.mp mem with
    | inl mem => exact le_trans (between range mem last (by simp)) (le_of_lt proper)
    | inr mem =>
      cases List.mem_singleton.mp mem
      exact le_rfl
  have free : ∀ key, rank last.2 ≤ rank key → rank key ≤ rank lookupKey → ¬Covers rank (earlier++[last]++after) key := by
    intro key least most
    rw [covers_append,or_iff_left (later key most)]
    rintro ⟨range,mem,_,ends⟩
    exact absurd (lt_of_lt_of_le ends (past range mem)) (not_lt.mpr least)
  rw [List.getLast?_concat]
  simp only [raised]
  split
  · rename_i larger
    have larger := (ranked.gt _ _).mp larger
    refine ⟨le_of_lt larger,fun _ => ended,free,fun _ key less => ?_⟩
    cases le_total (rank key) (rank last.1) with
    | inl under => exact ⟨last.1,under,proper,last,by simp,le_rfl,proper⟩
    | inr within => exact ⟨key,le_rfl,less,last,by simp,within,less⟩
  · rename_i smaller
    have smaller := not_lt.mp (mt (ranked.gt _ _).mpr smaller)
    exact ⟨le_rfl,id,fun key least most => free key (le_trans smaller least) most,
      fun wrong => absurd wrong (lt_irrefl _)⟩

structure Lowered (rank : BSONObj ν → β) (ranges : RangeMap ν) (lookupKey bound lowered : BSONObj ν) : Prop where
  below : rank lowered ≤ rank bound
  above : rank lookupKey < rank bound → rank lookupKey < rank lowered
  uncovered : ∀ key, rank lookupKey ≤ rank key → rank key < rank lowered → ¬Covers rank ranges key
  stopped : lowered = bound ∨ ∃ range ∈ ranges, range.1 = lowered

theorem lowered_upper :
    Lowered rank ranges lookupKey bound (lowered bson bound (upperEntry bson ranges lookupKey)) := by
  obtain ⟨before,after,rfl,low,high⟩ := start_split ranged lookupKey
  rw [upperEntry_split ranked low high]
  have earlier : ∀ key, rank lookupKey ≤ rank key → ¬Covers rank before key := by
    rintro key least ⟨range,mem,starts,ends⟩
    refine outside ⟨range,List.mem_append_left _ mem,low range mem,lt_of_le_of_lt least ends⟩
  cases after with
  | nil =>
    refine ⟨le_rfl,id,?_,.inl rfl⟩
    intro key least _
    rw [covers_append,or_iff_right (earlier key least)]
    exact covers_nil
  | cons first rest =>
    have behind := high first (.head _)
    obtain ⟨_,right,_⟩ := ranged_append.mp ranged
    obtain ⟨proper,_,apart⟩ := ranged_cons.mp right
    have free : ∀ key, rank lookupKey ≤ rank key → rank key < rank first.1 → ¬Covers rank (before++first :: rest) key := by
      intro key least less
      rw [covers_append,or_iff_right (earlier key least)]
      refine not_covers_later ?_
      intro range mem
      cases List.mem_cons.mp mem with
      | inl same => exact same ▸ less
      | inr mem => exact lt_trans less (lt_of_lt_of_le proper (apart range mem))
    simp only [List.head?_cons,lowered]
    split
    · rename_i smaller
      have smaller := (ranked.lt _ _).mp smaller
      exact ⟨le_of_lt smaller,fun _ => behind,free,.inr ⟨first,by simp,rfl⟩⟩
    · rename_i larger
      have larger := not_lt.mp (mt (ranked.lt _ _).mpr larger)
      exact ⟨le_rfl,id,fun key least less => free key least (lt_of_lt_of_le less larger),.inl rfl⟩

end

end

-- The keys of the key space that no chunk and no pending range holds.
def Orphaned (bson : Bson ν) (self : CollectionMetadata ν) (key : BSONObj ν) : Prop :=
  woCompare bson (getMinKey bson self) key ≤ 0 ∧ woCompare bson key (getMaxKey bson self) < 0 ∧
    (∀ chunk ∈ self.chunksMap, rangeContains bson chunk.1 chunk.2 key = false) ∧
    ∀ pending ∈ self.pendingMap, rangeContains bson pending.1 pending.2 key = false

section
variable {β : Type} [LinearOrder β] {rank : BSONObj ν → β} {self : CollectionMetadata ν}

theorem orphaned_iff (ranked : Ranked (woCompare bson) rank) :
    Orphaned bson self key ↔ rank (getMinKey bson self) ≤ rank key ∧ rank key < rank (getMaxKey bson self) ∧
      ¬Covers rank self.chunksMap key ∧ ¬Covers rank self.pendingMap key := by
  have missing : ∀ ranges : RangeMap ν, (∀ range ∈ ranges, rangeContains bson range.1 range.2 key = false) ↔
      ¬Covers rank ranges key := by
    intro ranges
    simp [Covers,← contains_within ranked,not_exists,not_and,Bool.not_eq_true]
  rw [Orphaned,ranked.le,ranked.lt,missing,missing]

def behind (bound : Range ν → BSONObj ν) (rank : BSONObj ν → β) (self : CollectionMetadata ν) (key : BSONObj ν) : Nat :=
  (self.chunksMap++self.pendingMap).countP fun range => rank key < rank (bound range)

theorem behind_less {bound : Range ν → BSONObj ν} (further : rank key < rank (bound range))
    (mem : range ∈ self.chunksMap++self.pendingMap) : behind bound rank self (bound range) < behind bound rank self key := by
  refine countP_less ?_ mem (decide_eq_true further) (decide_eq_false (lt_irrefl _))
  intro other _ beyond
  exact decide_eq_true (lt_trans further (of_decide_eq_true beyond))

-- A maximal range of orphaned keys; it ends with the key space or where a chunk or a pending range starts.
structure Gap (bson : Bson ν) (rank : BSONObj ν → β) (metadata : CollectionMetadata ν) (range : Range ν) : Prop where
  maximal : MaximalInterval (fun a b => rank a ≤ rank b) (Orphaned bson metadata) (Within rank range)
  stops : range.2 = getMaxKey bson metadata ∨ ∃ other ∈ metadata.chunksMap++metadata.pendingMap, other.1 = range.2

-- What the function comes to for a lookup key: no orphaned key from there on, or the gap with the first one.
inductive Next (bson : Bson ν) (rank : BSONObj ν → β) (self : CollectionMetadata ν) (lookupKey : BSONObj ν) :
    Option (Range ν) → Prop where
  | none : (∀ key, rank lookupKey ≤ rank key → ¬Orphaned bson self key) → Next bson rank self lookupKey none
  | range {range : Range ν} (first : BSONObj ν) : rank lookupKey ≤ rank first → Within rank range first →
      (∀ key, rank lookupKey ≤ rank key → rank key < rank first → ¬Orphaned bson self key) →
      Gap bson rank self range → Next bson rank self lookupKey (some range)

theorem Next.jump (later : Next bson rank self next result) (further : rank lookupKey < rank next)
    (taken : ∀ key, rank lookupKey ≤ rank key → rank key < rank next → ¬Orphaned bson self key) :
    Next bson rank self lookupKey result := by
  have skipped : ∀ {key}, rank lookupKey ≤ rank key → ¬rank next ≤ rank key → ¬Orphaned bson self key :=
    fun least short => taken _ least (not_le.mp short)
  cases later with
  | none nothing =>
    refine .none fun key least => ?_
    by_cases reached : rank next ≤ rank key
    · exact nothing key reached
    · exact skipped least reached
  | range first least within nothing gap =>
    refine .range first (le_trans (le_of_lt further) least) within (fun key lower less => ?_) gap
    by_cases reached : rank next ≤ rank key
    · exact nothing key reached less
    · exact skipped lower reached

section
variable (ranked : Ranked (woCompare bson) rank) (chunks : Ranged rank self.chunksMap) (pending : Ranged rank self.pendingMap)
include ranked chunks pending

theorem stops_taken (stops : key = getMaxKey bson self ∨ ∃ other ∈ self.chunksMap++self.pendingMap, other.1 = key) :
    ¬Orphaned bson self key := by
  intro free
  obtain ⟨_,short,noChunk,noPending⟩ := (orphaned_iff ranked).mp free
  rcases stops with top | ⟨other,mem,start⟩
  · exact absurd short (top ▸ lt_irrefl _)
  subst start
  cases List.mem_append.mp mem with
  | inl mem => exact noChunk ⟨other,mem,le_rfl,chunks.proper other mem⟩
  | inr mem => exact noPending ⟨other,mem,le_rfl,pending.proper other mem⟩

theorem neighbours_gap (least : rank (getMinKey bson self) ≤ rank lookupKey)
    (most : rank lookupKey < rank (getMaxKey bson self))
    (low : Raised rank self.chunksMap lookupKey (getMinKey bson self) middle)
    (lower : Raised rank self.pendingMap lookupKey middle minKey)
    (high : Lowered rank self.chunksMap lookupKey (getMaxKey bson self) upper)
    (higher : Lowered rank self.pendingMap lookupKey upper maxKey) :
    Within rank (minKey,maxKey) lookupKey ∧ Gap bson rank self (minKey,maxKey) := by
  have starts := lower.below (low.below least)
  have ends := higher.above (high.above most)
  have stops : maxKey = getMaxKey bson self ∨ ∃ other ∈ self.chunksMap++self.pendingMap, other.1 = maxKey := by
    rcases higher.stopped with same | ⟨range,mem,start⟩
    · rcases high.stopped with top | ⟨range,mem,start⟩
      · exact .inl (same.trans top)
      · exact .inr ⟨range,List.mem_append_left _ mem,start.trans same.symm⟩
    · exact .inr ⟨range,List.mem_append_right _ mem,start⟩
  refine ⟨⟨starts,ends⟩,maximal_range (lt_of_le_of_lt starts ends) ?_ ?_ (stops_taken ranked chunks pending stops),stops⟩
  · rintro key ⟨from_low,to_high⟩
    refine (orphaned_iff ranked).mpr ⟨le_trans low.above (le_trans lower.above from_low),
      lt_of_lt_of_le to_high (le_trans higher.below high.below),?_,?_⟩
    · cases le_total (rank key) (rank lookupKey) with
      | inl under => exact low.uncovered key (le_trans lower.above from_low) under
      | inr upward => exact high.uncovered key upward (lt_of_lt_of_le to_high higher.below)
    · cases le_total (rank key) (rank lookupKey) with
      | inl under => exact lower.uncovered key from_low under
      | inr upward => exact higher.uncovered key upward to_high
  intro key less
  by_cases fromPending : rank middle < rank minKey
  · obtain ⟨stop,left,right,covered⟩ := lower.stopped fromPending key less
    exact ⟨stop,left,right,fun free => ((orphaned_iff ranked).mp free).2.2.2 covered⟩
  have same : rank minKey = rank middle := le_antisymm (not_lt.mp fromPending) lower.above
  rw [same] at less ⊢
  by_cases fromChunks : rank (getMinKey bson self) < rank middle
  · obtain ⟨stop,left,right,covered⟩ := low.stopped fromChunks key less
    exact ⟨stop,left,right,fun free => ((orphaned_iff ranked).mp free).2.2.1 covered⟩
  · refine ⟨key,le_rfl,less,fun free => ?_⟩
    exact fromChunks (lt_of_le_of_lt ((orphaned_iff ranked).mp free).1 less)

theorem orphanLoop_next : ∀ (steps : Nat) (lookupKey : BSONObj ν), rank (getMinKey bson self) ≤ rank lookupKey →
      behind Prod.snd rank self lookupKey < steps →
      ∃ result, orphanLoop bson self steps lookupKey = some result ∧ Next bson rank self lookupKey result := by
  intro steps
  induction steps with
  | zero =>
    intro lookupKey _ enough
    cases enough
  | succ steps ih =>
    intro lookupKey least enough
    rw [orphanLoop]
    by_cases inside : woCompare bson lookupKey (getMaxKey bson self) < 0
    · rw [if_pos inside]
      dsimp only
      have most := (ranked.lt _ _).mp inside
      cases chunkEnd : overlapEnd bson (lowerEntry bson self.chunksMap lookupKey) lookupKey with
      | some next =>
        obtain ⟨further,covered,range,mem,rfl⟩ := overlapEnd_some ranked chunks chunkEnd
        have fewer := behind_less further (List.mem_append_left _ mem)
        obtain ⟨result,returned,later⟩ := ih range.2 (le_trans least (le_of_lt further)) (by omega)
        refine ⟨result,returned,later.jump further fun key lower upper free => ?_⟩
        exact ((orphaned_iff ranked).mp free).2.2.1 (covered key lower upper)
      | none =>
        cases pendingEnd : overlapEnd bson (lowerEntry bson self.pendingMap lookupKey) lookupKey with
        | some next =>
          obtain ⟨further,covered,range,mem,rfl⟩ := overlapEnd_some ranked pending pendingEnd
          have fewer := behind_less further (List.mem_append_right _ mem)
          obtain ⟨result,returned,later⟩ := ih range.2 (le_trans least (le_of_lt further)) (by omega)
          refine ⟨result,returned,later.jump further fun key lower upper free => ?_⟩
          exact ((orphaned_iff ranked).mp free).2.2.2 (covered key lower upper)
        | none =>
          have noChunk := overlapEnd_none ranked chunks chunkEnd
          have noPending := overlapEnd_none ranked pending pendingEnd
          obtain ⟨within,gap⟩ := neighbours_gap ranked chunks pending least most
            (raised_lower ranked chunks noChunk) (raised_lower ranked pending noPending)
            (lowered_upper ranked chunks noChunk) (lowered_upper ranked pending noPending)
          refine ⟨_,rfl,.range lookupKey le_rfl within (fun key lower upper => ?_) gap⟩
          exact absurd lower (not_le.mpr upper)
    · rw [if_neg inside]
      have beyond := not_lt.mp (mt (ranked.lt _ _).mpr inside)
      refine ⟨none,rfl,.none fun key lower free => ?_⟩
      exact absurd ((orphaned_iff ranked).mp free).2.1 (not_lt.mpr (le_trans beyond lower))

end

theorem getNextOrphanRange_loop :
    getNextOrphanRange bson self (steps+1) lookupKey = orphanLoop bson self (steps+1) lookupKey := by
  unfold getNextOrphanRange
  split
  · rename_i empty
    have nothing : getMaxKey bson self = [] := by simpa [getMaxKey] using empty
    rw [orphanLoop,nothing,if_neg]
    cases lookupKey <;> simp [woCompare]
  · rfl

-- The gaps from a lookup key on, in their order.
structure Listed (bson : Bson ν) (rank : BSONObj ν → β) (metadata : CollectionMetadata ν) (lookupKey : BSONObj ν)
    (out : List (Range ν)) : Prop where
  ascending : out.Pairwise fun left right => rank left.2 ≤ rank right.1
  behind : ∀ range ∈ out, rank lookupKey ≤ rank range.1
  gaps : ∀ range ∈ out, Gap bson rank metadata range
  complete : ∀ key, rank lookupKey ≤ rank key → Orphaned bson metadata key → ∃ range ∈ out, Within rank range key

theorem Gap.orphaned (gap : Gap bson rank self range) (within : Within rank range key) : Orphaned bson self range.1 :=
  gap.maximal.inside range.1 ⟨le_rfl,lt_of_le_of_lt within.1 within.2⟩

theorem Gap.starts (ranked : Ranked (woCompare bson) rank) (gap : Gap bson rank self range)
    (edge : rank lookupKey = rank (getMinKey bson self) ∨ ¬Orphaned bson self lookupKey)
    (least : rank lookupKey ≤ rank first) (within : Within rank range first) : rank lookupKey ≤ rank range.1 := by
  rcases edge with bottom | taken
  · rw [bottom]
    exact ((orphaned_iff ranked).mp (gap.orphaned within)).1
  · by_contra under
    exact taken (gap.maximal.inside lookupKey ⟨le_of_lt (not_le.mp under),lt_of_le_of_lt least within.2⟩)

theorem Listed.cons (gap : Gap bson rank self range) (within : Within rank range first)
    (starts : rank lookupKey ≤ rank range.1) (nothing : ∀ key, rank lookupKey ≤ rank key → rank key < rank first → ¬Orphaned bson self key)
    (listed : Listed bson rank self range.2 out) : Listed bson rank self lookupKey (range :: out) := by
  have further : rank range.1 ≤ rank range.2 := le_trans within.1 (le_of_lt within.2)
  refine ⟨List.pairwise_cons.mpr ⟨listed.behind,listed.ascending⟩,?_,List.forall_mem_cons.mpr ⟨gap,listed.gaps⟩,?_⟩
  · refine List.forall_mem_cons.mpr ⟨starts,fun other mem => ?_⟩
    exact le_trans starts (le_trans further (listed.behind other mem))
  intro key least free
  have reached : rank first ≤ rank key := not_lt.mp fun less => nothing key least less free
  by_cases inside : rank key < rank range.2
  · exact ⟨range,.head _,le_trans within.1 reached,inside⟩
  · obtain ⟨other,mem,held⟩ := listed.complete key (not_lt.mp inside) free
    exact ⟨other,.tail _ mem,held⟩

theorem orphanRanges_listed (ranked : Ranked (woCompare bson) rank) (chunks : Ranged rank self.chunksMap)
    (pending : Ranged rank self.pendingMap) (enough : self.chunksMap.length+self.pendingMap.length ≤ steps) :
    ∀ (rounds : Nat) (lookupKey : BSONObj ν), rank (getMinKey bson self) ≤ rank lookupKey →
      rank lookupKey = rank (getMinKey bson self) ∨ ¬Orphaned bson self lookupKey →
      behind Prod.fst rank self lookupKey+1 ≤ rounds ∨ rank (getMaxKey bson self) ≤ rank lookupKey →
      ∃ out, orphanRanges bson self (steps+1) (rounds+1) lookupKey = some out ∧ Listed bson rank self lookupKey out := by
  have sufficient : ∀ key, behind Prod.snd rank self key < steps+1 := by
    intro key
    have most := List.countP_le_length (p := fun range : Range ν => rank key < rank range.2) (l := self.chunksMap++self.pendingMap)
    rw [List.length_append] at most
    exact Nat.lt_succ_of_le (le_trans most enough)
  intro rounds
  induction rounds using Nat.strong_induction_on with
  | _ rounds ih =>
    intro lookupKey least edge left
    obtain ⟨result,returned,next⟩ := orphanLoop_next ranked chunks pending (steps+1) lookupKey least (sufficient lookupKey)
    rw [orphanRanges,getNextOrphanRange_loop,returned]
    cases next with
    | none nothing => exact ⟨[],rfl,.nil,by simp,by simp,fun key lower free => absurd free (nothing key lower)⟩
    | @range range first lower within nothing gap =>
      have inside := ((orphaned_iff ranked).mp (gap.maximal.inside first within)).2.1
      have further : rank lookupKey < rank range.2 := lt_of_le_of_lt lower within.2
      have counted : behind Prod.fst rank self lookupKey+1 ≤ rounds := left.resolve_right fun beyond =>
        absurd (lt_of_le_of_lt (le_trans beyond lower) inside) (lt_irrefl _)
      obtain ⟨rounds,rfl⟩ : ∃ fewer, rounds = fewer+1 := ⟨rounds-1,by omega⟩
      have fewer : behind Prod.fst rank self range.2+1 ≤ rounds ∨ rank (getMaxKey bson self) ≤ rank range.2 := by
        rcases gap.stops with top | ⟨other,mem,start⟩
        · exact .inr (le_of_eq (by rw [top]))
        rw [← start] at further ⊢
        have less := behind_less further mem
        exact .inl (by omega)
      obtain ⟨out,rest,listed⟩ := ih rounds (Nat.lt_succ_self _) range.2 (le_trans least (le_of_lt further))
        (.inr (stops_taken ranked chunks pending gap.stops)) fewer
      refine ⟨range :: out,?_,listed.cons gap within (gap.starts ranked edge lower within) nothing⟩
      simp [rest]

end

theorem orphan_ranges_exact {keys : Keys ν} (order : TotalPreorder keys.bson.elementCompare) {self : CollectionMetadata ν}
    (chunks : Disjoint keys.bson self.chunksMap) (pending : Disjoint keys.bson self.pendingMap) (steps rounds : Nat)
    (enough : self.chunksMap.length+self.pendingMap.length < steps)
    (sufficient : self.chunksMap.length+self.pendingMap.length+1 < rounds) :
    ∃ out, orphanRanges keys.bson self steps rounds (getMinKey keys.bson self) = some out ∧
      out.Pairwise (fun left right => woCompare keys.bson left.2 right.1 ≤ 0) ∧
      (∀ range ∈ out, MaximalInterval (fun a b => woCompare keys.bson a b ≤ 0) (Orphaned keys.bson self)
        fun key => rangeContains keys.bson range.1 range.2 key = true) ∧
      ∀ S, MaximalInterval (fun a b => woCompare keys.bson a b ≤ 0) (Orphaned keys.bson self) S →
        ∃ range ∈ out, ∀ key, S key ↔ rangeContains keys.bson range.1 range.2 key = true := by
  obtain ⟨β,_,rank,ranked⟩ := exists_rank (woCompare_preorder order)
  obtain ⟨steps,rfl⟩ : ∃ n, steps = n+1 := ⟨steps-1,by omega⟩
  obtain ⟨rounds,rfl⟩ : ∃ n, rounds = n+1 := ⟨rounds-1,by omega⟩
  have most := List.countP_le_length (p := fun range : Range ν => rank (getMinKey keys.bson self) < rank range.1)
    (l := self.chunksMap++self.pendingMap)
  rw [List.length_append] at most
  obtain ⟨out,returned,listed⟩ := orphanRanges_listed ranked ((disjoint_iff ranked).mp chunks)
    ((disjoint_iff ranked).mp pending) (Nat.le_of_lt_succ enough) rounds (getMinKey keys.bson self) le_rfl (.inl rfl)
    (.inl (by unfold behind; omega))
  have order_eq : (fun a b => woCompare keys.bson a b ≤ 0) = fun a b => rank a ≤ rank b := by
    funext a b
    exact propext (ranked.le a b)
  have contains_eq : ∀ range : Range ν, (fun key => rangeContains keys.bson range.1 range.2 key = true) = Within rank range := by
    intro range
    funext key
    exact propext (contains_within ranked range)
  rw [order_eq]
  refine ⟨out,returned,?_,?_,?_⟩
  · refine listed.ascending.imp ?_
    intro left right
    exact (ranked.le _ _).mpr
  · intro range member
    rw [contains_eq]
    exact (listed.gaps range member).maximal
  intro S maximal
  obtain ⟨key,held⟩ := maximal.inhabited
  have free := maximal.inside key held
  obtain ⟨range,member,within⟩ := listed.complete key ((orphaned_iff ranked).mp free).1 free
  refine ⟨range,member,fun other => ?_⟩
  rw [contains_within ranked]
  exact maximal_unique (fun a b => le_total (rank a) (rank b)) maximal (listed.gaps range member).maximal held within

theorem orphan_ranges_exact_sample : orphanRanges sampleBson (splitSample [(sampleKey 0,sampleKey 10)]) 2 3
      (getMinKey sampleBson (splitSample [(sampleKey 0,sampleKey 10)])) =
        some [(sampleKey (-100),sampleKey 0),(sampleKey 10,sampleKey 100)] ∧
    ∃ out, orphanRanges sampleBson (splitSample [(sampleKey 0,sampleKey 10)]) 2 3
        (getMinKey sampleBson (splitSample [(sampleKey 0,sampleKey 10)])) = some out ∧
      ∀ range ∈ out, MaximalInterval (fun a b => woCompare sampleBson a b ≤ 0)
        (Orphaned sampleBson (splitSample [(sampleKey 0,sampleKey 10)]))
        fun key => rangeContains sampleBson range.1 range.2 key = true := by
  refine ⟨by decide,?_⟩
  obtain ⟨out,returned,_,maximal,_⟩ :=
    orphan_ranges_exact sampleBson_order single_disjoint disjoint_nil 2 3 (by decide) (by decide)
  exact ⟨out,returned,maximal⟩

def mixedChunks : CollectionMetadata Mixed where
  collVersion := sampleVersion 1
  shardVersion := sampleVersion 1
  keyPattern := longKey 1
  pendingMap := [(mixedKey double53,mixedKey double53Later)]
  chunksMap := [(longKey (2^53+1),longKey (2^53+9))]
  rangesMap := []

-- The long 2^53 is pending, and less than the start of the chunk that the pending range is equal to.
theorem pending_key_orphaned : Disjoint mixedBson mixedChunks.chunksMap ∧ Disjoint mixedBson mixedChunks.pendingMap ∧
    orphanRanges mixedBson mixedChunks 3 4 (getMinKey mixedBson mixedChunks) =
      some [(mixedKey .least,longKey (2^53+1)),(longKey (2^53+9),mixedKey .greatest)] ∧
    rangeContains mixedBson (mixedKey .least) (longKey (2^53+1)) (longKey (2^53)) = true ∧
    rangeContains mixedBson (mixedKey double53) (mixedKey double53Later) (longKey (2^53)) = true := by
  refine ⟨⟨.cons (by simp) .nil,by decide +kernel,.cons (by simp) .nil⟩,
    ⟨.cons (by simp) .nil,by decide +kernel,.cons (by simp) .nil⟩,?_⟩
  decide +kernel

end Mongo.Metadata
