import SipxExternals.FoundationsSortedMap
import SipxExternals.MongoRangeMaps

namespace Mongo.ChunkDiff
open Foundations Foundations.SortedMap
open Metadata (BSONObj Bson woCompare ChunkVersion)

-- A document of config.chunks; a bound that is no object and a shard that is no string
-- are none.
structure ChunkDoc (ν : Type) where
  min : Option (BSONObj ν)
  max : Option (BSONObj ν)
  shard : Option String
  version : ChunkVersion

-- What the subclasses supply. An entry has one bound as its key and the other in its
-- value: maxFrom is for maps with min keys, minFrom for maps with max keys.
structure ConfigDiffTracker (ν V Shard : Type) where
  isTracked : ChunkDoc ν → Bool
  isMinKeyIndexed : Bool
  maxFrom : V → BSONObj ν
  minFrom : V → BSONObj ν
  rangeFor : ChunkDoc ν → BSONObj ν → BSONObj ν → BSONObj ν × V
  shardFor : String → Shard

structure Attached (ν V Shard : Type) where
  currMap : List (BSONObj ν × V)
  maxVersion : ChunkVersion
  maxShardVersions : List (Shard × ChunkVersion)
  validDiffs : Nat

def hasCompatibleEpoch (version : ChunkVersion) (otherEpoch : BitVec 96) : Bool :=
  !(decide (otherEpoch ≠ 0) && decide (version.epoch ≠ 0) && decide (otherEpoch ≠ version.epoch))

section
variable {ν V Shard : Type} [DecidableEq Shard] (bson : Bson ν) (tracker : ConfigDiffTracker ν V Shard)

def overlappingRange (currMap : List (BSONObj ν × V)) (min max : BSONObj ν) : Nat × Nat :=
  if tracker.isMinKeyIndexed then
    (lowerBound (woCompare bson) currMap min,lowerBound (woCompare bson) currMap max)
  else (upperBound (woCompare bson) currMap min,upperBound (woCompare bson) currMap max)

def isOverlapping (currMap : List (BSONObj ν × V)) (min max : BSONObj ν) : Bool :=
  let overlap := overlappingRange bson tracker currMap min max
  overlap.1 ≠ overlap.2

def removeOverlapping (currMap : List (BSONObj ν × V)) (min max : BSONObj ν) : List (BSONObj ν × V) :=
  let overlap := overlappingRange bson tracker currMap min max
  eraseBetween currMap overlap.1 overlap.2

def noteShardVersion (shard : Shard) (version : ChunkVersion) :
    List (Shard × ChunkVersion) → List (Shard × ChunkVersion)
  | [] => [(shard,version)]
  | entry :: rest =>
    if entry.1 = shard then
      (if entry.2.combined < version.combined then (shard,version) else entry) :: rest
    else entry :: noteShardVersion shard version rest

def applyDoc (min max : BSONObj ν) (shard : String) (version : ChunkVersion) (s : Attached ν V Shard) :
    Attached ν V Shard :=
  { currMap := removeOverlapping bson tracker s.currMap min max
    maxVersion := if version.combined > s.maxVersion.combined then version else s.maxVersion
    maxShardVersions := noteShardVersion (tracker.shardFor shard) version s.maxShardVersions
    validDiffs := s.validDiffs+1 }

-- The documents that are to be tracked, with their bounds; none when a version does
-- not fit.
def readLoop (currEpoch : BitVec 96) : List (ChunkDoc ν) → List (ChunkDoc ν × BSONObj ν × BSONObj ν) →
    Attached ν V Shard → Attached ν V Shard × Option (List (ChunkDoc ν × BSONObj ν × BSONObj ν))
  | [],newTracked,s => (s,some newTracked)
  | doc :: docs,newTracked,s =>
    match doc.min,doc.max,doc.shard with
    | some min,some max,some shard =>
      if doc.version.isSet = false ∨ hasCompatibleEpoch doc.version currEpoch = false then (s,none)
      else
        readLoop currEpoch docs
          (if tracker.isTracked doc then newTracked++[(doc,min,max)] else newTracked)
          (applyDoc bson tracker min max shard doc.version s)
    | _,_,_ => readLoop currEpoch docs newTracked s

def insertLoop : List (ChunkDoc ν × BSONObj ν × BSONObj ν) → Attached ν V Shard → Attached ν V Shard × Bool
  | [],s => (s,true)
  | (doc,min,max) :: rest,s =>
    if isOverlapping bson tracker s.currMap min max then (s,false)
    else insertLoop rest
      { s with currMap := insert (woCompare bson) (tracker.rangeFor doc min max) s.currMap }

def calculateConfigDiff (docs : List (ChunkDoc ν)) (s : Attached ν V Shard) : Attached ν V Shard × Int :=
  match readLoop bson tracker s.maxVersion.epoch docs [] { s with validDiffs := 0 } with
  | (s,none) => (s,-1)
  | (s,some newTracked) =>
    match insertLoop bson tracker newTracked s with
    | (s,false) => (s,-1)
    | (s,true) => (s,s.validDiffs)

end

def scmConfigDiffTracker (currShard : String) : ConfigDiffTracker ν (BSONObj ν) String where
  isTracked doc := doc.shard == some currShard
  isMinKeyIndexed := true
  maxFrom val := val
  minFrom val := val
  rangeFor _ min max := (min,max)
  shardFor name := name

structure Chunk (ν : Type) where
  min : BSONObj ν
  max : BSONObj ν
  shard : String
  lastmod : ChunkVersion
  deriving DecidableEq

def cmConfigDiffTracker : ConfigDiffTracker ν (Chunk ν) String where
  isTracked _ := true
  isMinKeyIndexed := false
  maxFrom chunk := chunk.max
  minFrom chunk := chunk.min
  rangeFor doc min max := (max,⟨min,max,doc.shard.getD "",doc.version⟩)
  shardFor name := name

open Foundations.Segments Foundations.Ranges Foundations.SortedMap List

section
variable {ν V Shard : Type} (bson : Bson ν) (tracker : ConfigDiffTracker ν V Shard)

def bounds (entry : BSONObj ν × V) : BSONObj ν × BSONObj ν :=
  if tracker.isMinKeyIndexed then (entry.1,tracker.maxFrom entry.2) else (tracker.minFrom entry.2,entry.1)

def Adapts : Prop := ∀ doc min max, bounds tracker (tracker.rangeFor doc min max) = (min,max)

def hits (range : BSONObj ν × BSONObj ν) (key : BSONObj ν) : Bool :=
  if tracker.isMinKeyIndexed then
    decide (woCompare bson range.1 key ≤ 0) && decide (woCompare bson key range.2 < 0)
  else decide (woCompare bson range.1 key < 0) && decide (woCompare bson key range.2 ≤ 0)

def docOf (chunk : Chunk ν) : ChunkDoc ν := ⟨some chunk.min,some chunk.max,some chunk.shard,chunk.lastmod⟩

def rangeOf (chunk : Chunk ν) : BSONObj ν × BSONObj ν := (chunk.min,chunk.max)

def entryOf (chunk : Chunk ν) : BSONObj ν × V := tracker.rangeFor (docOf chunk) chunk.min chunk.max

structure Fits (epoch : BitVec 96) (chunk : Chunk ν) : Prop where
  proper : woCompare bson chunk.min chunk.max < 0
  set : chunk.lastmod.isSet = true
  compatible : hasCompatibleEpoch chunk.lastmod epoch = true

variable {bson tracker} {κ : Type} [LinearOrder κ] {rank : BSONObj ν → κ}
  {currMap : List (BSONObj ν × V)}

def reaches (bson : Bson ν) (tracker : ConfigDiffTracker ν V Shard) (key : BSONObj ν) (entry : BSONObj ν × V) : Bool :=
  if tracker.isMinKeyIndexed then !decide (woCompare bson entry.1 key < 0)
  else decide (woCompare bson key entry.1 < 0)

theorem overlappingRange_reaches (currMap : List (BSONObj ν × V)) {min max : BSONObj ν} :
    overlappingRange bson tracker currMap min max =
      (currMap.findIdx (reaches bson tracker min),currMap.findIdx (reaches bson tracker max)) := by
  unfold overlappingRange reaches
  split <;> rfl

theorem reaches_cut (ranked : Ranked (woCompare bson) rank) (sorted : Sorted rank currMap) :
    Cut (reaches bson tracker key) currMap := by
  unfold reaches
  split
  · exact lower_cut ranked sorted
  · exact upper_cut ranked sorted

theorem reaches_earlier {min max : BSONObj ν} (ranked : Ranked (woCompare bson) rank) (proper : rank min ≤ rank max)
    (reached : reaches bson tracker max entry = true) : reaches bson tracker min entry = true := by
  unfold reaches at reached ⊢
  by_cases indexed : tracker.isMinKeyIndexed = true
  · simp only [indexed,if_true,ranked.lt,Bool.not_eq_true',decide_eq_false_iff_not,not_lt] at reached ⊢
    exact le_trans proper reached
  · simp only [indexed,Bool.false_eq_true,if_false,ranked.lt,decide_eq_true_eq] at reached ⊢
    exact lt_of_le_of_lt proper reached

section
variable (ranked : Ranked (woCompare bson) rank)
include ranked

theorem hits_reaches {range : BSONObj ν × BSONObj ν} : hits bson tracker range entry.1 =
      (reaches bson tracker range.1 entry && !reaches bson tracker range.2 entry) := by
  unfold hits reaches
  split
  · simp [ranked.lt,ranked.le,← decide_not]
  · simp [ranked.lt,ranked.le,← decide_not]

section
variable (sorted : Sorted rank currMap) (range : BSONObj ν × BSONObj ν) (proper : rank range.1 ≤ rank range.2)
include sorted range proper

theorem removeOverlapping_filter : removeOverlapping bson tracker currMap range.1 range.2 =
      currMap.filter fun entry => !hits bson tracker range entry.1 := by
  unfold removeOverlapping
  rw [overlappingRange_reaches]
  refine (erase_cuts (reaches_cut ranked sorted) (reaches_cut ranked sorted)
    fun _ _ => reaches_earlier ranked proper).trans ?_
  refine filter_congr ?_
  intro entry _
  simp [hits_reaches ranked]

theorem isOverlapping_iff : isOverlapping bson tracker currMap range.1 range.2 = true ↔
      ∃ entry ∈ currMap, hits bson tracker range entry.1 = true := by
  unfold isOverlapping
  have low : Cut (reaches bson tracker range.1) currMap := reaches_cut ranked sorted
  have differ := cuts_differ low (reaches_cut ranked sorted) fun _ _ => reaches_earlier ranked proper
  simpa [overlappingRange_reaches,hits_reaches ranked] using differ

end

theorem hits_congr (range : BSONObj ν × BSONObj ν)
    (same : rank key = rank other) : hits bson tracker range key = hits bson tracker range other := by
  simp [hits,ranked.lt,ranked.le,same]

theorem hits_own (adapts : Adapts tracker) (chunk : Chunk ν) (proper : rank chunk.min < rank chunk.max) :
    hits bson tracker (rangeOf chunk) (entryOf tracker chunk).1 = true := by
  have own := adapts (docOf chunk) chunk.min chunk.max
  unfold bounds at own
  unfold hits rangeOf entryOf
  split at own
  · rename_i indexed
    rw [(Prod.mk.injEq _ _ _ _).mp own |>.1]
    simp [indexed,ranked.lt,ranked.le,proper]
  · rename_i indexed
    rw [(Prod.mk.injEq _ _ _ _).mp own |>.2]
    simp [indexed,ranked.lt,ranked.le,proper]

end

end

section
variable {ν V Shard : Type} {bson : Bson ν} {tracker : ConfigDiffTracker ν V Shard}
  {κ : Type} [LinearOrder κ] {rank : BSONObj ν → κ} {currMap : List (BSONObj ν × V)}

def later (current newer : ChunkVersion) : ChunkVersion := if newer.combined > current.combined then newer else current

def toTrack (chunk : Chunk ν) : ChunkDoc ν × BSONObj ν × BSONObj ν := (docOf chunk,chunk.min,chunk.max)

theorem readLoop_fits [DecidableEq Shard] (fits : Fits bson epoch chunk) :
    readLoop bson tracker epoch (docOf chunk :: docs) tracked s = readLoop bson tracker epoch docs
        (if tracker.isTracked (docOf chunk) then tracked++[toTrack chunk] else tracked)
        (applyDoc bson tracker chunk.min chunk.max chunk.shard chunk.lastmod s) := by
  have fine : ¬ (chunk.lastmod.isSet = false ∨ hasCompatibleEpoch chunk.lastmod epoch = false) := by
    simp [fits.set,fits.compatible]
  exact if_neg fine

theorem readLoop_reads [DecidableEq Shard]
    (ranked : Ranked (woCompare bson) rank) {chunks : List (Chunk ν)} (fits : ∀ chunk ∈ chunks, Fits bson epoch chunk)
    (tracked : List (ChunkDoc ν × BSONObj ν × BSONObj ν)) (s : Attached ν V Shard) (sorted : Sorted rank s.currMap) :
    ∃ next, readLoop bson tracker epoch (chunks.map docOf) tracked s =
        (next,some (tracked++(chunks.filter fun chunk => tracker.isTracked (docOf chunk)).map toTrack)) ∧
      next.currMap = (s.currMap.filter fun entry =>
        chunks.all fun chunk => !hits bson tracker (rangeOf chunk) entry.1) ∧
      next.maxVersion = (chunks.map (·.lastmod)).foldl later s.maxVersion ∧
      next.validDiffs = s.validDiffs+chunks.length := by
  induction chunks generalizing tracked s with
  | nil => exact ⟨s,by simp [readLoop],by simp,rfl,rfl⟩
  | cons chunk chunks ih =>
    obtain ⟨own,others⟩ := forall_mem_cons.mp fits
    have proper := le_of_lt ((ranked.lt _ _).mp own.proper)
    have removed : removeOverlapping bson tracker s.currMap chunk.min chunk.max = _ :=
      removeOverlapping_filter ranked sorted (rangeOf chunk) proper
    obtain ⟨next,read,map,version,count⟩ := ih others
      (if tracker.isTracked (docOf chunk) then tracked++[toTrack chunk] else tracked)
      (applyDoc bson tracker chunk.min chunk.max chunk.shard chunk.lastmod s)
      (by
        rw [applyDoc,removed]
        exact sorted_filter sorted)
    refine ⟨next,?_,?_,version,?_⟩
    · rw [map_cons,readLoop_fits own,read,filter_cons]
      split
      · simp
      · rfl
    · rw [map,applyDoc,removed,filter_filter]
      refine filter_congr ?_
      intro entry _
      simp [Bool.and_comm]
    · rw [count,length_cons]
      change s.validDiffs+1+chunks.length = s.validDiffs+(chunks.length+1)
      omega

def Clear (bson : Bson ν) (tracker : ConfigDiffTracker ν V Shard) (currMap : List (BSONObj ν × V))
    (chunks : List (Chunk ν)) : Prop :=
  (∀ chunk ∈ chunks, ∀ entry ∈ currMap, hits bson tracker (rangeOf chunk) entry.1 = false) ∧
    chunks.Pairwise fun earlier chunk => hits bson tracker (rangeOf chunk) (entryOf tracker earlier).1 = false

theorem clear_inserted (free : ∀ entry ∈ currMap, hits bson tracker (rangeOf chunk) entry.1 = false)
    (perm : inserted.Perm (entryOf tracker chunk :: currMap)) :
    Clear bson tracker inserted chunks ↔ Clear bson tracker currMap (chunk :: chunks) := by
  unfold Clear
  rw [pairwise_cons]
  constructor
  · rintro ⟨apart,later⟩
    refine ⟨forall_mem_cons.mpr ⟨free,?_⟩,?_,later⟩
    · intro other mem entry stored
      exact apart other mem entry (perm.mem_iff.mpr (.tail _ stored))
    · intro other mem
      exact apart other mem _ (perm.mem_iff.mpr (.head _))
  rintro ⟨apart,first,later⟩
  refine ⟨?_,later⟩
  intro other mem entry stored
  rcases mem_cons.mp (perm.mem_iff.mp stored) with rfl | old
  · exact first other mem
  · exact apart other (.tail _ mem) entry old

theorem insertLoop_inserts (ranked : Ranked (woCompare bson) rank) (adapts : Adapts tracker)
    (chunks : List (Chunk ν)) (proper : ∀ chunk ∈ chunks, rank chunk.min < rank chunk.max)
    (s : Attached ν V Shard) (sorted : Sorted rank s.currMap) :
    ∃ last passed, insertLoop bson tracker (chunks.map toTrack) s = (last,passed) ∧
      (passed = true ↔ Clear bson tracker s.currMap chunks) ∧
      (passed = true → Sorted rank last.currMap ∧ last.currMap.Perm (s.currMap++chunks.map (entryOf tracker)) ∧
        last.maxVersion = s.maxVersion ∧ last.validDiffs = s.validDiffs) := by
  induction chunks generalizing s with
  | nil => exact ⟨s,true,rfl,by simp [Clear],fun _ => ⟨sorted,by simp,rfl,rfl⟩⟩
  | cons chunk chunks ih =>
    obtain ⟨own,others⟩ := forall_mem_cons.mp proper
    have overlap : isOverlapping bson tracker s.currMap chunk.min chunk.max = true ↔ _ :=
      isOverlapping_iff ranked sorted (rangeOf chunk) (le_of_lt own)
    rw [map_cons,toTrack,insertLoop]
    by_cases hit : ∃ entry ∈ s.currMap, hits bson tracker (rangeOf chunk) entry.1 = true
    · rw [if_pos (overlap.mpr hit)]
      obtain ⟨entry,mem,inside⟩ := hit
      refine ⟨s,false,rfl,⟨nofun,?_⟩,nofun⟩
      intro clear
      rw [clear.1 chunk mem_cons_self entry mem] at inside
      cases inside
    rw [if_neg (mt overlap.mp hit)]
    have free : ∀ entry ∈ s.currMap, hits bson tracker (rangeOf chunk) entry.1 = false := by
      intro entry mem
      exact Bool.eq_false_iff.mpr fun inside => hit ⟨entry,mem,inside⟩
    have new : ∀ other ∈ s.currMap, rank other.1 ≠ rank (entryOf tracker chunk).1 := by
      intro other mem same
      have inside := hits_own ranked adapts chunk own
      rw [← hits_congr ranked (rangeOf chunk) same,free other mem] at inside
      cases inside
    have perm := insert_perm ranked new
    obtain ⟨last,passed,ran,whole,result⟩ := ih others
      { s with currMap := insert (woCompare bson) (entryOf tracker chunk) s.currMap }
      (insert_sorted ranked sorted new)
    refine ⟨last,passed,ran,whole.trans (clear_inserted free perm),?_⟩
    intro through
    obtain ⟨order,all,version,count⟩ := result through
    refine ⟨order,all.trans ?_,version,count⟩
    exact (perm.append_right _).trans perm_middle.symm

def leftOver (bson : Bson ν) (tracker : ConfigDiffTracker ν V Shard) (chunks : List (Chunk ν))
    (currMap : List (BSONObj ν × V)) : List (BSONObj ν × V) :=
  currMap.filter fun entry => chunks.all fun chunk => !hits bson tracker (rangeOf chunk) entry.1

def trackedOf (tracker : ConfigDiffTracker ν V Shard) (chunks : List (Chunk ν)) : List (Chunk ν) :=
  chunks.filter fun chunk => tracker.isTracked (docOf chunk)

theorem clear_leftOver : Clear bson tracker (leftOver bson tracker chunks currMap) (trackedOf tracker chunks) ↔
    (trackedOf tracker chunks).Pairwise fun earlier chunk =>
      hits bson tracker (rangeOf chunk) (entryOf tracker earlier).1 = false := by
  refine ⟨And.right,fun apart => ⟨?_,apart⟩⟩
  intro chunk mem entry stored
  have all := (mem_filter.mp stored).2
  rw [all_eq_true] at all
  simpa using all chunk (mem_filter.mp mem).1

theorem diff_applied [DecidableEq Shard] (ranked : Ranked (woCompare bson) rank) (adapts : Adapts tracker)
    (s : Attached ν V Shard) (fits : ∀ chunk ∈ chunks, Fits bson s.maxVersion.epoch chunk)
    (sorted : Sorted rank s.currMap) (ran : calculateConfigDiff bson tracker (chunks.map docOf) s = (last,result)) :
    (result ≠ -1 ↔ (trackedOf tracker chunks).Pairwise fun earlier chunk =>
      hits bson tracker (rangeOf chunk) (entryOf tracker earlier).1 = false) ∧
    (result ≠ -1 → result = chunks.length ∧ Sorted rank last.currMap ∧
      last.currMap.Perm (leftOver bson tracker chunks s.currMap++(trackedOf tracker chunks).map (entryOf tracker)) ∧
      last.maxVersion = (chunks.map (·.lastmod)).foldl later s.maxVersion) := by
  obtain ⟨next,read,map,version,count⟩ := readLoop_reads ranked fits []
    { s with validDiffs := 0 } sorted
  have proper : ∀ chunk ∈ trackedOf tracker chunks, rank chunk.min < rank chunk.max := fun chunk mem =>
    (ranked.lt _ _).mp (fits chunk (mem_filter.mp mem).1).proper
  have left : next.currMap = leftOver bson tracker chunks s.currMap := map
  obtain ⟨inserted,passed,final,whole,ends⟩ := insertLoop_inserts ranked adapts (trackedOf tracker chunks) proper next
    (by rw [left]; exact sorted_filter sorted)
  rw [left,clear_leftOver] at whole
  rw [trackedOf] at final
  cases passed with
  | false =>
    simp only [calculateConfigDiff,read,nil_append,final] at ran
    cases ran
    refine ⟨⟨fun wrong => absurd rfl wrong,?_⟩,fun wrong => absurd rfl wrong⟩
    intro apart
    cases whole.mpr apart
  | true =>
    simp only [calculateConfigDiff,read,nil_append,final] at ran
    cases ran
    obtain ⟨order,perm,same,counted⟩ := ends rfl
    refine ⟨⟨fun _ => whole.mp rfl,fun _ => by simp⟩,fun _ => ⟨?_,order,?_,same.trans version⟩⟩
    · rw [counted,count]
      simp
    · rwa [left] at perm

end

end Mongo.ChunkDiff
