import SipxExternals.MongoBalancer

namespace Mongo.Balancer
open Metadata (BSONObj Bson woCompare)
open DistributionStatus List

structure Receives (tag : String) (info : ShardInfo) : Prop where
  room : info.isSizeMaxed = false
  staying : info.draining = false
  quiet : info.hasOpsQueued = false
  tagged : info.hasTag tag = true

section
variable (bson : Bson ν) (distribution : DistributionStatus ν)

structure Moves (move : MigrateInfo ν) (chunk : ChunkType ν) (donor receiver : ShardInfo) : Prop where
  least : move.min = chunk.min
  bound : move.max = chunk.max
  movable : chunk.isJumbo = false
  held : chunk ∈ distribution.chunksIn move.fromShard
  different : move.toShard ≠ move.fromShard
  gives : (move.fromShard,donor) ∈ distribution.shardInfo
  takes : (move.toShard,receiver) ∈ distribution.shardInfo
  receives : Receives (distribution.getTagForChunk bson chunk) receiver

inductive Helps (tags : List String) (move : MigrateInfo ν) (chunk : ChunkType ν) (donor : ShardInfo) : Prop where
  | drains : donor.draining = true → Helps tags move chunk donor
  | violates : donor.hasTag (distribution.getTagForChunk bson chunk) = false → Helps tags move chunk donor
  | evens : distribution.getTagForChunk bson chunk ∈ tags →
      distribution.numberOfChunksInShardWithTag bson move.toShard (distribution.getTagForChunk bson chunk)+2 ≤
        distribution.numberOfChunksInShardWithTag bson move.fromShard (distribution.getTagForChunk bson chunk) →
      Helps tags move chunk donor

def Answers (tags : List String) (result : Except Fault (Option (MigrateInfo ν))) : Prop :=
  ∃ found, result = .ok found ∧ ∀ move, found = some move →
    ∃ chunk donor receiver, Moves bson distribution move chunk donor receiver ∧
      Helps bson distribution tags move chunk donor

end

section
variable {distribution : DistributionStatus ν}

theorem find_of_mem {entries : List (String × β)} (nodup : (entries.map Prod.fst).Nodup) (mem : (name,value) ∈ entries) :
    entries.find? (fun entry => entry.1 == name) = some (name,value) := by
  induction entries with
  | nil => cases mem
  | cons entry entries ih =>
    obtain ⟨new,rest⟩ := nodup_cons.mp nodup
    rcases mem_cons.mp mem with rfl | later
    · simp
    have other : entry.1 ≠ name := by
      intro equal
      exact new (equal ▸ mem_map_of_mem later)
    rw [find?_cons_of_neg (by simpa using other)]
    exact ih rest later

theorem findInfo_listed (mem : (shard,info) ∈ distribution.shardInfo) : distribution.findInfo shard = .ok info := by
  simp [findInfo,find_of_mem distribution.names mem]

theorem info_unique (one : (shard,info) ∈ distribution.shardInfo) (two : (shard,other) ∈ distribution.shardInfo) :
    info = other := by
  have same := (findInfo_listed one).symm.trans (findInfo_listed two)
  cases same
  rfl

theorem shard_listed (mem : shard ∈ distribution.shards) : ∃ info, (shard,info) ∈ distribution.shardInfo := by
  obtain ⟨entry,inside,rfl⟩ := mem_map.mp mem
  exact ⟨entry.2,inside⟩

theorem getChunks_listed (mem : (shard,info) ∈ distribution.shardInfo) :
    distribution.getChunks shard = .ok (distribution.chunksIn shard) := by
  have known := distribution.listed shard (mem_map_of_mem mem)
  obtain ⟨entry,inside,equal⟩ := mem_map.mp known
  cases found : distribution.shardChunks.find? (fun entry => entry.1 == shard) with
  | none => exact absurd equal (by simpa using find?_eq_none.mp found entry inside)
  | some entry => simp [getChunks,chunksIn,found]

end

section
variable {bson : Bson ν} {distribution : DistributionStatus ν}

theorem canReceive_iff : canReceive tag info = true ↔ Receives tag info := by
  simp only [canReceive,Bool.and_eq_true,Bool.not_eq_true']
  constructor
  · rintro ⟨⟨⟨room,staying⟩,quiet⟩,tagged⟩
    exact ⟨room,staying,quiet,tagged⟩
  · rintro ⟨room,staying,quiet,tagged⟩
    exact ⟨⟨⟨room,staying⟩,quiet⟩,tagged⟩

theorem receiver_fits (found : distribution.getBestReceieverShard tag ≠ "") :
    ∃ info, (distribution.getBestReceieverShard tag,info) ∈ distribution.shardInfo ∧ Receives tag info := by
  refine foldlRecOn (motive := fun best : String × Nat =>
    best.1 ≠ "" → ∃ info, (best.1,info) ∈ distribution.shardInfo ∧ Receives tag info) distribution.shardInfo _ ?_ ?_ found
  · intro named
    exact absurd rfl named
  intro best ih entry mem
  unfold betterReceiver
  split
  · exact ih
  split
  · exact ih
  · rename_i able _
    intro _
    exact ⟨entry.2,mem,canReceive_iff.mp (by simpa using able)⟩

theorem donor_listed (found : distribution.getMostOverloadedShard bson tag ≠ "") :
    ∃ info, (distribution.getMostOverloadedShard bson tag,info) ∈ distribution.shardInfo := by
  refine foldlRecOn (motive := fun worst : String × Nat =>
    worst.1 ≠ "" → ∃ info, (worst.1,info) ∈ distribution.shardInfo) distribution.shardInfo _ ?_ ?_ found
  · intro named
    exact absurd rfl named
  intro worst ih entry mem
  unfold worseDonor
  split
  · exact ih
  split
  · exact ih
  · intro _
    exact ⟨entry.2,mem⟩

end

section
variable {bson : Bson ν} {distribution : DistributionStatus ν}

theorem answers_none : Answers bson distribution tags (.ok none) :=
  ⟨none,rfl,fun _ absent => nomatch absent⟩

theorem answers_some (moves : Moves bson distribution move chunk donor receiver)
    (helps : Helps bson distribution tags move chunk donor) : Answers bson distribution tags (.ok (some move)) := by
  refine ⟨some move,rfl,?_⟩
  intro other same
  cases same
  exact ⟨chunk,donor,receiver,moves,helps⟩

-- The receiver that is found for a chunk is not the shard that holds it: the chunk may
-- not stay there, or there are fewer chunks of its tag.
section
variable (gives : (shard,donor) ∈ distribution.shardInfo)
include gives

theorem moves_received (held : chunk ∈ distribution.chunksIn shard) (movable : chunk.isJumbo = false)
    (found : distribution.getBestReceieverShard (distribution.getTagForChunk bson chunk) ≠ "")
    (different : distribution.getBestReceieverShard (distribution.getTagForChunk bson chunk) ≠ shard) :
    ∃ receiver, Moves bson distribution
      (migration ns (distribution.getBestReceieverShard (distribution.getTagForChunk bson chunk)) shard chunk)
      chunk donor receiver := by
  obtain ⟨receiver,takes,receives⟩ := receiver_fits found
  exact ⟨receiver,rfl,rfl,movable,held,different,gives,takes,receives⟩

theorem receiver_differs (unfit : ¬Receives tag donor) (found : distribution.getBestReceieverShard tag ≠ "") :
    distribution.getBestReceieverShard tag ≠ shard := by
  intro same
  obtain ⟨receiver,takes,receives⟩ := receiver_fits found
  rw [same] at takes
  exact unfit (info_unique takes gives ▸ receives)

theorem drainChunks_moves (draining : donor.draining = true)
    (held : ∀ chunk ∈ chunks, chunk ∈ distribution.chunksIn shard)
    (moved : drainChunks bson ns distribution shard chunks = some move) :
    ∃ chunk receiver, Moves bson distribution move chunk donor receiver := by
  induction chunks with
  | nil => cases moved
  | cons chunk rest ih =>
    have later := ih (forall_mem_cons.mp held).2
    simp only [drainChunks] at moved
    split at moved
    · exact later moved
    split at moved
    · exact later moved
    rename_i movable found
    cases moved
    have unfit : ¬Receives (distribution.getTagForChunk bson chunk) donor := by
      intro receives
      rw [receives.staying] at draining
      cases draining
    obtain ⟨receiver,moves⟩ := moves_received gives (held chunk (.head _)) (by simpa using movable) found
      (receiver_differs gives unfit found)
    exact ⟨chunk,receiver,moves⟩

end

theorem drainShards_answers (listed : ∀ shard ∈ pending, shard ∈ distribution.shards) :
    Answers bson distribution tags (drainShards bson ns distribution pending) := by
  induction pending with
  | nil => exact answers_none
  | cons shard rest ih =>
    have later := ih (forall_mem_cons.mp listed).2
    obtain ⟨info,gives⟩ := shard_listed (listed shard (.head _))
    simp only [drainShards,findInfo_listed gives,getChunks_listed gives]
    split
    · exact later
    split
    · exact later
    split
    · exact later
    rename_i draining _ _
    cases moved : drainChunks bson ns distribution shard (distribution.chunksIn shard) with
    | none => exact later
    | some move =>
      obtain ⟨chunk,receiver,moves⟩ := drainChunks_moves gives (by simpa using draining) (fun _ mem => mem) moved
      exact answers_some moves (.drains (by simpa using draining))

theorem violatingChunks_answers (gives : (shard,donor) ∈ distribution.shardInfo)
    (held : ∀ chunk ∈ chunks, chunk ∈ distribution.chunksIn shard) :
    Answers bson distribution tags (violatingChunks bson ns distribution shard donor chunks) := by
  induction chunks with
  | nil => exact answers_none
  | cons chunk rest ih =>
    have later := ih (forall_mem_cons.mp held).2
    simp only [violatingChunks]
    split
    · exact later
    split
    · exact later
    split
    · exact later
    rename_i untagged movable found
    have unfit : ¬Receives (distribution.getTagForChunk bson chunk) donor := by
      intro receives
      exact untagged receives.tagged
    have different := receiver_differs gives unfit found
    obtain ⟨receiver,moves⟩ := moves_received gives (held chunk (.head _)) (by simpa using movable) found different
    rw [if_neg different]
    exact answers_some moves (.violates (by simpa using untagged))

theorem violatingShards_answers (listed : ∀ shard ∈ pending, shard ∈ distribution.shards) :
    Answers bson distribution tags (violatingShards bson ns distribution pending) := by
  induction pending with
  | nil => exact answers_none
  | cons shard rest ih =>
    have later := ih (forall_mem_cons.mp listed).2
    obtain ⟨info,gives⟩ := shard_listed (listed shard (.head _))
    have chunks : Answers bson distribution tags (violatingChunks bson ns distribution shard info (distribution.chunksIn shard)) :=
      violatingChunks_answers gives fun _ mem => mem
    obtain ⟨found,answer,good⟩ := chunks
    simp only [violatingShards,findInfo_listed gives,getChunks_listed gives,answer]
    cases found with
    | none => exact later
    | some move => exact ⟨some move,rfl,good⟩

theorem threshold_two : 2 ≤ getThreshold distribution balancedLastTime := by
  unfold getThreshold
  split
  · decide
  · split <;> decide

theorem count_tagged : distribution.numberOfChunksInShardWithTag bson shard tag =
    ((distribution.chunksIn shard).filter fun chunk => distribution.getTagForChunk bson chunk == tag).length := by
  rw [numberOfChunksInShardWithTag,countP_eq_length_filter]
  congr 1
  refine filter_congr ?_
  intro chunk _
  exact BEq.comm

theorem evened_answers (gives : (shard,donor) ∈ distribution.shardInfo) (inside : tag ∈ tags)
    (found : distribution.getBestReceieverShard tag ≠ "")
    (gap : distribution.numberOfChunksInShardWithTag bson (distribution.getBestReceieverShard tag) tag+2 ≤
      distribution.numberOfChunksInShardWithTag bson shard tag)
    (held : chunk ∈ distribution.chunksIn shard) (tagged : distribution.getTagForChunk bson chunk = tag)
    (movable : chunk.isJumbo = false) :
    Answers bson distribution tags (.ok (some (migration ns (distribution.getBestReceieverShard tag) shard chunk))) := by
  subst tagged
  have different : distribution.getBestReceieverShard (distribution.getTagForChunk bson chunk) ≠ shard := by
    intro same
    rw [same] at gap
    omega
  obtain ⟨receiver,moves⟩ := moves_received gives held movable found different
  exact answers_some moves (.evens inside gap)

theorem balanceTags_answers (two : 2 ≤ threshold) (within : ∀ tag ∈ order, tag ∈ tags) :
    Answers bson distribution tags (balanceTags bson ns distribution threshold order) := by
  induction order with
  | nil => exact answers_none
  | cons tag rest ih =>
    have later := ih (forall_mem_cons.mp within).2
    simp only [balanceTags]
    split
    · exact later
    split
    · exact later
    split
    · exact answers_none
    split
    · exact later
    rename_i named filled found gap
    obtain ⟨donor,gives⟩ := donor_listed named
    simp only [getChunks_listed gives]
    split
    · rename_i chunk first
      obtain ⟨held,tagged⟩ := mem_filter.mp (mem_of_find?_eq_some first)
      exact evened_answers gives (within tag (.head _)) found (by omega) held (by simpa using tagged)
        (by simpa using find?_some first)
    · rw [← count_tagged,if_pos filled]
      exact later

theorem balance_answers (within : ∀ tag ∈ order, tag ∈ tags) :
    Answers bson distribution tags (balance bson ns distribution balancedLastTime order) := by
  have draining : Answers bson distribution tags (drainShards bson ns distribution distribution.shards) :=
    drainShards_answers fun _ mem => mem
  obtain ⟨found,answer,good⟩ := draining
  simp only [balance,answer]
  cases found with
  | some move => exact ⟨some move,rfl,good⟩
  | none =>
    have violating : Answers bson distribution tags (if distribution.allTags.length > 0 then
        violatingShards bson ns distribution distribution.shards else .ok none) := by
      split
      · exact violatingShards_answers fun _ mem => mem
      · exact answers_none
    obtain ⟨found,answer,good⟩ := violating
    simp only [answer]
    cases found with
    | some move => exact ⟨some move,rfl,good⟩
    | none => exact balanceTags_answers threshold_two within

-- The first tag with a donor and no receiver ends the round.
theorem balanceTags_passed
    (passed : ∀ earlier ∈ before, distribution.getMostOverloadedShard bson earlier = "" ∨ distribution.getBestReceieverShard earlier ≠ "")
    (quiet : balanceTags bson ns distribution threshold (before++rest) = .ok none) :
    balanceTags bson ns distribution threshold rest = .ok none := by
  induction before with
  | nil => exact quiet
  | cons tag before ih =>
    obtain ⟨first,later⟩ := forall_mem_cons.mp passed
    refine ih later ?_
    simp only [cons_append,balanceTags] at quiet
    grind

end

end Mongo.Balancer
