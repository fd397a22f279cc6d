import SipxExternals.MongoChunkClones
import SipxExternals.MongoChunkDiff

namespace Mongo.ChunkDiff
open Foundations.Segments Foundations.Ranges Foundations.SortedMap List
open Metadata (BSONObj Bson woCompare rangeContains ChunkVersion sampleBson sampleBson_order sampleKey sampleVersion mixedBson
  mixedKey longKey)
open BsonCompare (Mixed double53)

section
variable {ν V Shard : Type} (bson : Bson ν) (tracker : ConfigDiffTracker ν V Shard)

def Overlaps (left right : BSONObj ν × BSONObj ν) : Prop :=
  ∃ key, rangeContains bson left.1 left.2 key = true ∧ rangeContains bson right.1 right.2 key = true

def Ascending (currMap : List (BSONObj ν × V)) : Prop :=
  currMap.Pairwise fun left right => woCompare bson left.1 right.1 < 0

def DisjointMap (currMap : List (BSONObj ν × V)) : Prop :=
  currMap.Pairwise fun left right => ¬ Overlaps bson (bounds tracker left) (bounds tracker right)

def Inside (range : BSONObj ν × BSONObj ν) (key : BSONObj ν) : Prop :=
  woCompare bson range.1 key < 0 ∧ woCompare bson key range.2 < 0

def keyOf (chunk : Chunk ν) : BSONObj ν := (entryOf tracker chunk).1

def Detected (chunks : List (Chunk ν)) : Prop :=
  ¬ (trackedOf tracker chunks).Pairwise fun earlier chunk =>
    hits bson tracker (rangeOf chunk) (keyOf tracker earlier) = false

-- No tracked document has its key inside of an earlier one, or inside of a stored range
-- that no document reaches the key of.
def Harmless (chunks : List (Chunk ν)) (currMap : List (BSONObj ν × V)) : Prop :=
  ((trackedOf tracker chunks).Pairwise fun earlier chunk =>
    ¬ Inside bson (rangeOf earlier) (keyOf tracker chunk)) ∧
  ∀ entry ∈ currMap, (∀ chunk ∈ chunks, hits bson tracker (rangeOf chunk) entry.1 = false) →
    ∀ chunk ∈ trackedOf tracker chunks, ¬ Inside bson (bounds tracker entry) (keyOf tracker chunk)

variable {bson tracker} {κ : Type} [LinearOrder κ] {rank : BSONObj ν → κ} {currMap : List (BSONObj ν × V)}

theorem overlaps_within (ranked : Ranked (woCompare bson) rank) :
    Overlaps bson left right ↔ ∃ key, Within rank left key ∧ Within rank right key := by
  simp [Overlaps,Metadata.contains_within ranked]

theorem overlaps_symm (overlaps : Overlaps bson left right) : Overlaps bson right left := by
  obtain ⟨key,first,second⟩ := overlaps
  exact ⟨key,second,first⟩

theorem overlaps_missed (ranked : Ranked (woCompare bson) rank) {range : BSONObj ν × BSONObj ν}
    (proper : rank range.1 < rank range.2)
    (missed : hits bson tracker range entry.1 = false) :
    Overlaps bson (bounds tracker entry) range ↔
      Inside bson (bounds tracker entry) (if tracker.isMinKeyIndexed then range.1 else range.2) := by
  rw [overlaps_within ranked]
  simp only [Inside,ranked.lt]
  unfold hits at missed
  unfold bounds
  by_cases indexed : tracker.isMinKeyIndexed = true
  · simp only [indexed,if_true,ranked.le,ranked.lt,Bool.and_eq_false_iff,decide_eq_false_iff_not,not_le,not_lt]
      at missed ⊢
    constructor
    · rintro ⟨key,⟨starts,ends⟩,low,high⟩
      rcases missed with before | behind
      · exact ⟨before,lt_of_le_of_lt low ends⟩
      · exact absurd (lt_of_le_of_lt (le_trans behind starts) high) (lt_irrefl _)
    · rintro ⟨starts,ends⟩
      exact ⟨range.1,⟨le_of_lt starts,ends⟩,le_rfl,proper⟩
  simp only [indexed,Bool.false_eq_true,if_false,ranked.le,ranked.lt,Bool.and_eq_false_iff,
    decide_eq_false_iff_not,not_le,not_lt] at missed ⊢
  constructor
  · rintro ⟨key,⟨starts,ends⟩,low,high⟩
    refine ⟨lt_of_le_of_lt starts high,?_⟩
    rcases missed with before | behind
    · exact absurd (lt_of_lt_of_le (lt_of_le_of_lt low ends) before) (lt_irrefl _)
    · exact behind
  · rintro ⟨starts,ends⟩
    rcases le_total (rank (tracker.minFrom entry.2)) (rank range.1) with below | above
    · exact ⟨range.1,⟨below,lt_trans proper ends⟩,le_rfl,proper⟩
    · exact ⟨tracker.minFrom entry.2,⟨le_rfl,lt_trans starts ends⟩,above,starts⟩

theorem keyOf_bound (adapts : Adapts tracker) :
    keyOf tracker chunk = if tracker.isMinKeyIndexed then (rangeOf chunk).1 else (rangeOf chunk).2 := by
  have own := adapts (docOf chunk) chunk.min chunk.max
  unfold bounds at own
  split at own
  · rename_i indexed
    rw [if_pos indexed]
    exact (Prod.mk.inj own).1
  · rename_i indexed
    rw [if_neg indexed]
    exact (Prod.mk.inj own).2

theorem bounds_entryOf (adapts : Adapts tracker) : bounds tracker (entryOf tracker chunk) = rangeOf chunk := adapts ..

theorem entry_missed (ranked : Ranked (woCompare bson) rank) (adapts : Adapts tracker)
    (proper : rank chunk.min < rank chunk.max) (missed : hits bson tracker (rangeOf chunk) entry.1 = false) :
    Overlaps bson (bounds tracker entry) (bounds tracker (entryOf tracker chunk)) ↔
      Inside bson (bounds tracker entry) (keyOf tracker chunk) := by
  rw [bounds_entryOf adapts,keyOf_bound adapts]
  exact overlaps_missed ranked proper missed

theorem pairwise_given {list : List α} (given : list.Pairwise T)
    (same : ∀ a ∈ list, ∀ b ∈ list, T a b → (R a b ↔ S a b)) : list.Pairwise R ↔ list.Pairwise S := by
  constructor
  · intro first
    refine (given.and first).imp_of_mem ?_
    intro a b left right both
    exact (same a left b right both.1).mp both.2
  intro second
  refine (given.and second).imp_of_mem ?_
  intro a b left right both
  exact (same a left b right both.1).mpr both.2

theorem disjoint_iff (ranked : Ranked (woCompare bson) rank) (adapts : Adapts tracker)
    (proper : ∀ chunk ∈ chunks, rank chunk.min < rank chunk.max) (disjoint : DisjointMap bson tracker currMap)
    (apart : (trackedOf tracker chunks).Pairwise fun earlier chunk =>
      hits bson tracker (rangeOf chunk) (keyOf tracker earlier) = false)
    (perm : final.Perm (leftOver bson tracker chunks currMap++(trackedOf tracker chunks).map (entryOf tracker))) :
    DisjointMap bson tracker final ↔ Harmless bson tracker chunks currMap := by
  have inside : ∀ chunk ∈ trackedOf tracker chunks, chunk ∈ chunks := fun chunk mem =>
    (mem_filter.mp mem).1
  have old : (leftOver bson tracker chunks currMap).Pairwise fun left right =>
      ¬ Overlaps bson (bounds tracker left) (bounds tracker right) := List.Pairwise.filter _ disjoint
  have new : ((trackedOf tracker chunks).Pairwise fun earlier chunk =>
        ¬ Overlaps bson (bounds tracker (entryOf tracker earlier)) (bounds tracker (entryOf tracker chunk))) ↔
      (trackedOf tracker chunks).Pairwise fun earlier chunk =>
        ¬ Inside bson (rangeOf earlier) (keyOf tracker chunk) := by
    refine pairwise_given apart ?_
    intro earlier _ chunk mem missed
    rw [entry_missed ranked adapts (proper chunk (inside chunk mem)) missed,bounds_entryOf adapts]
  have symmetric : ∀ {left right : BSONObj ν × V}, ¬ Overlaps bson (bounds tracker left) (bounds tracker right) →
      ¬ Overlaps bson (bounds tracker right) (bounds tracker left) := fun apart overlaps =>
    apart (overlaps_symm overlaps)
  unfold DisjointMap Harmless
  rw [perm.pairwise_iff symmetric,pairwise_append,pairwise_map,new]
  constructor
  · rintro ⟨_,later,across⟩
    refine ⟨later,?_⟩
    intro entry stored free chunk mem within
    have kept : entry ∈ leftOver bson tracker chunks currMap :=
      mem_filter.mpr ⟨stored,all_eq_true.mpr fun other listed => by simp [free other listed]⟩
    refine across entry kept _ (mem_map_of_mem mem) ?_
    exact (entry_missed ranked adapts (proper chunk (inside chunk mem)) (free chunk (inside chunk mem))).mpr within
  rintro ⟨later,across⟩
  refine ⟨old,later,?_⟩
  intro entry kept other made overlaps
  obtain ⟨chunk,mem,rfl⟩ := mem_map.mp made
  obtain ⟨stored,clear⟩ := mem_filter.mp kept
  have free : ∀ chunk ∈ chunks, hits bson tracker (rangeOf chunk) entry.1 = false := fun chunk listed => by
    simpa using all_eq_true.mp clear chunk listed
  refine across entry stored free chunk mem ?_
  exact (entry_missed ranked adapts (proper chunk (inside chunk mem)) (free chunk (inside chunk mem))).mp overlaps

theorem diff_disjoint [DecidableEq Shard] {keys : Metadata.Keys ν} (order : TotalPreorder keys.bson.elementCompare) (adapts : Adapts tracker)
    (chunks : List (Chunk ν)) (s : Attached ν V Shard) (ascending : Ascending keys.bson s.currMap)
    (disjoint : DisjointMap keys.bson tracker s.currMap) (fits : ∀ chunk ∈ chunks, Fits keys.bson s.maxVersion.epoch chunk) :
    ((calculateConfigDiff keys.bson tracker (chunks.map docOf) s).2 ≠ -1 →
      DisjointMap keys.bson tracker (calculateConfigDiff keys.bson tracker (chunks.map docOf) s).1.currMap) ↔
    Detected keys.bson tracker chunks ∨ Harmless keys.bson tracker chunks s.currMap := by
  obtain ⟨κ,_,rank,ranked⟩ := exists_rank (Metadata.woCompare_preorder order)
  have sorted : Sorted rank s.currMap := ascending.imp ((ranked.lt _ _).mp)
  obtain ⟨passes,result⟩ := diff_applied ranked adapts s fits sorted (Prod.eta _).symm
  by_cases apart : (trackedOf tracker chunks).Pairwise fun earlier chunk =>
      hits keys.bson tracker (rangeOf chunk) (keyOf tracker earlier) = false
  · have passed := passes.mpr apart
    obtain ⟨_,_,perm,_⟩ := result passed
    have whole := disjoint_iff ranked adapts (fun chunk member => (ranked.lt _ _).mp (fits chunk member).proper)
      disjoint apart perm
    constructor
    · exact fun holds => .inr (whole.mp (holds passed))
    · rintro (detected | harmless) _
      · exact absurd apart detected
      · exact whole.mpr harmless
  · exact ⟨fun _ => .inl apart,fun _ passed => absurd (passes.mp passed) apart⟩

end

theorem scm_adapts : Adapts (scmConfigDiffTracker currShard : ConfigDiffTracker ν (BSONObj ν) String) :=
  fun _ _ _ => rfl

theorem cm_adapts : Adapts (cmConfigDiffTracker : ConfigDiffTracker ν (Chunk ν) String) := fun _ _ _ => rfl

def sampleChunk (min max : Int) (major : BitVec 32) : Chunk Int :=
  ⟨sampleKey min,sampleKey max,"a",sampleVersion major⟩

def oneRange : Attached Int (BSONObj Int) String := ⟨[(sampleKey 0,sampleKey 10)],sampleVersion 1,[],0⟩

def mixedRange : Attached Mixed (BSONObj Mixed) String := ⟨[(longKey (2^53-1),longKey (2^53+1))],sampleVersion 1,[],0⟩

def mixedChunk : Chunk Mixed := ⟨mixedKey double53,longKey (2^53+3),"a",sampleVersion 2⟩

theorem diff_disjoint_behind :
    (calculateConfigDiff sampleBson (scmConfigDiffTracker "a") ([sampleChunk 10 20 2].map docOf) oneRange).2 = 1 ∧
      DisjointMap sampleBson (scmConfigDiffTracker "a") (calculateConfigDiff sampleBson (scmConfigDiffTracker "a")
        ([sampleChunk 10 20 2].map docOf) oneRange).1.currMap := by
  have fits : ∀ chunk ∈ [sampleChunk 10 20 2], Fits sampleBson oneRange.maxVersion.epoch chunk := by
    intro chunk member
    cases mem_singleton.mp member
    exact ⟨by decide,by decide,by decide⟩
  have counted : (calculateConfigDiff sampleBson (scmConfigDiffTracker "a") ([sampleChunk 10 20 2].map docOf) oneRange).2 = 1 := by
    decide
  have behind : Harmless sampleBson (scmConfigDiffTracker "a") [sampleChunk 10 20 2] oneRange.currMap := by
    refine ⟨pairwise_singleton _ _,?_⟩
    intro entry member _ chunk tracked
    cases mem_singleton.mp member
    cases mem_singleton.mp (mem_filter.mp tracked).1
    unfold Inside
    decide
  refine ⟨counted,(diff_disjoint sampleBson_order scm_adapts [sampleChunk 10 20 2] oneRange
    (pairwise_singleton _ _) (pairwise_singleton _ _) fits).mpr (.inr behind) ?_⟩
  decide

-- A range that begins inside of a stored one, and one that ends inside of it where the
-- max is the key. The double 2^53 equals the end 2^53+1 of a range that the long 2^53 is in.
theorem overlap_unseen :
    (calculateConfigDiff sampleBson (scmConfigDiffTracker "a") ([sampleChunk 5 8 2].map docOf) oneRange).2 = 1 ∧
      ¬ DisjointMap sampleBson (scmConfigDiffTracker "a") (calculateConfigDiff sampleBson (scmConfigDiffTracker "a")
        ([sampleChunk 5 8 2].map docOf) oneRange).1.currMap ∧
    (calculateConfigDiff sampleBson cmConfigDiffTracker ([sampleChunk 2 5 2].map docOf)
        ⟨[(sampleKey 10,sampleChunk 0 10 1)],sampleVersion 1,[],0⟩).2 = 1 ∧
      ¬ DisjointMap sampleBson cmConfigDiffTracker (calculateConfigDiff sampleBson cmConfigDiffTracker
        ([sampleChunk 2 5 2].map docOf) ⟨[(sampleKey 10,sampleChunk 0 10 1)],sampleVersion 1,[],0⟩).1.currMap ∧
    Harmless mixedBson (scmConfigDiffTracker "a") [mixedChunk] mixedRange.currMap ∧
      (calculateConfigDiff mixedBson (scmConfigDiffTracker "a") ([mixedChunk].map docOf) mixedRange).2 = 1 ∧
      ¬ DisjointMap mixedBson (scmConfigDiffTracker "a") (calculateConfigDiff mixedBson (scmConfigDiffTracker "a")
        ([mixedChunk].map docOf) mixedRange).1.currMap := by
  have made : (calculateConfigDiff mixedBson (scmConfigDiffTracker "a") ([mixedChunk].map docOf) mixedRange).1.currMap =
      [(longKey (2^53-1),longKey (2^53+1)),(mixedKey double53,longKey (2^53+3))] := by decide +kernel
  refine ⟨by decide,?_,by decide,?_,?_,by decide +kernel,?_⟩
  · intro disjoint
    exact (pairwise_cons.mp disjoint).1 _ (.head _) ⟨sampleKey 5,by decide,by decide⟩
  · intro disjoint
    exact (pairwise_cons.mp disjoint).1 _ (.head _) ⟨sampleKey 2,by decide,by decide⟩
  · refine ⟨pairwise_singleton _ _,?_⟩
    intro entry member _ chunk tracked
    cases mem_singleton.mp member
    cases mem_singleton.mp (mem_filter.mp tracked).1
    unfold Inside
    decide +kernel
  · intro disjoint
    rw [made] at disjoint
    exact (pairwise_cons.mp disjoint).1 _ (.head _) ⟨longKey (2^53),by decide +kernel,by decide +kernel⟩

end Mongo.ChunkDiff
