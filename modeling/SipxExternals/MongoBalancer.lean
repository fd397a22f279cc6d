import SipxExternals.FoundationsSortedMap
import SipxExternals.MongoCollectionMetadata

namespace Mongo.Balancer
open Foundations.SortedMap
open Metadata (BSONObj Bson woCompare)

structure ShardInfo where
  maxSize : Int
  currSize : Int
  draining : Bool
  hasOpsQueued : Bool
  tags : List String

def ShardInfo.isSizeMaxed (info : ShardInfo) : Bool :=
  if info.maxSize = 0 ∨ info.currSize = 0 then false else decide (info.currSize ≥ info.maxSize)

-- Every shard has the empty tag.
def ShardInfo.hasTag (info : ShardInfo) (tag : String) : Bool :=
  if tag.isEmpty then true else info.tags.contains tag

structure ChunkType (ν : Type) where
  min : BSONObj ν
  max : BSONObj ν
  jumbo : Option Bool
  deriving DecidableEq

def ChunkType.isJumbo (chunk : ChunkType ν) : Bool := chunk.jumbo == some true

structure TagRange (ν : Type) where
  min : BSONObj ν
  max : BSONObj ν
  tag : String

structure MigrateInfo (ν : Type) where
  ns : String
  toShard : String
  fromShard : String
  min : BSONObj ν
  max : BSONObj ν
  deriving DecidableEq

inductive Fault where
  | unknownShard | noChunkList | sameShard | nothingToMove
  deriving DecidableEq

-- The maps by shard name, as populateShardToChunksMap makes them; the tag ranges by their max.
structure DistributionStatus (ν : Type) where
  shardInfo : List (String × ShardInfo)
  shardChunks : List (String × List (ChunkType ν))
  tagRanges : List (BSONObj ν × TagRange ν)
  allTags : List String
  names : (shardInfo.map Prod.fst).Nodup
  listed : ∀ shard ∈ shardInfo.map Prod.fst, shard ∈ shardChunks.map Prod.fst

namespace DistributionStatus
variable (bson : Bson ν) (distribution : DistributionStatus ν)

def shards : List String := distribution.shardInfo.map Prod.fst

def findInfo (shard : String) : Except Fault ShardInfo :=
  match distribution.shardInfo.find? fun entry => entry.1 == shard with
  | some entry => .ok entry.2
  | none => .error .unknownShard

def getChunks (shard : String) : Except Fault (List (ChunkType ν)) :=
  match distribution.shardChunks.find? fun entry => entry.1 == shard with
  | some entry => .ok entry.2
  | none => .error .noChunkList

def totalChunks : Nat := distribution.shardChunks.foldl (fun total entry => total+entry.2.length) 0

def chunksIn (shard : String) : List (ChunkType ν) :=
  match distribution.shardChunks.find? fun entry => entry.1 == shard with
  | some entry => entry.2
  | none => []

def numberOfChunksInShard (shard : String) : Nat := (distribution.chunksIn shard).length

def getTagForChunk (chunk : ChunkType ν) : String :=
  if distribution.tagRanges.length = 0 then ""
  else
    match distribution.tagRanges[upperBound (woCompare bson) distribution.tagRanges chunk.min]? with
    | none => ""
    | some range => if woCompare bson chunk.min range.2.min < 0 then "" else range.2.tag

def numberOfChunksInShardWithTag (shard tag : String) : Nat :=
  (distribution.chunksIn shard).countP fun chunk => tag == distribution.getTagForChunk bson chunk

def canReceive (tag : String) (info : ShardInfo) : Bool :=
  !info.isSizeMaxed && !info.draining && !info.hasOpsQueued && info.hasTag tag

def betterReceiver (tag : String) (best : String × Nat) (entry : String × ShardInfo) : String × Nat :=
  if canReceive tag entry.2 = false then best
  else if distribution.numberOfChunksInShard entry.1 ≥ best.2 then best
  else (entry.1,distribution.numberOfChunksInShard entry.1)

def getBestReceieverShard (tag : String) : String :=
  (distribution.shardInfo.foldl (distribution.betterReceiver tag) ("",4294967295)).1

def worseDonor (tag : String) (worst : String × Nat) (entry : String × ShardInfo) : String × Nat :=
  if entry.2.hasOpsQueued then worst
  else if distribution.numberOfChunksInShardWithTag bson entry.1 tag ≤ worst.2 then worst
  else (entry.1,distribution.numberOfChunksInShardWithTag bson entry.1 tag)

def getMostOverloadedShard (tag : String) : String :=
  (distribution.shardInfo.foldl (distribution.worseDonor bson tag) ("",0)).1

end DistributionStatus

section
variable (bson : Bson ν) (ns : String) (distribution : DistributionStatus ν)

def migration (toShard fromShard : String) (chunk : ChunkType ν) : MigrateInfo ν :=
  ⟨ns,toShard,fromShard,chunk.min,chunk.max⟩

def drainChunks (shard : String) : List (ChunkType ν) → Option (MigrateInfo ν)
  | [] => none
  | chunk :: rest =>
    if chunk.isJumbo then drainChunks shard rest
    else
      let toShard := distribution.getBestReceieverShard (distribution.getTagForChunk bson chunk)
      if toShard = "" then drainChunks shard rest else some (migration ns toShard shard chunk)

-- 1) Everything has to go from a shard that is draining.
def drainShards : List String → Except Fault (Option (MigrateInfo ν))
  | [] => .ok none
  | shard :: rest =>
    match distribution.findInfo shard with
    | .error fault => .error fault
    | .ok info =>
      if info.draining = false then drainShards rest
      else if distribution.numberOfChunksInShard shard = 0 then drainShards rest
      else if info.hasOpsQueued then drainShards rest
      else
        match distribution.getChunks shard with
        | .error fault => .error fault
        | .ok chunks =>
          match drainChunks bson ns distribution shard chunks with
          | some move => .ok (some move)
          | none => drainShards rest

def violatingChunks (shard : String) (info : ShardInfo) : List (ChunkType ν) → Except Fault (Option (MigrateInfo ν))
  | [] => .ok none
  | chunk :: rest =>
    let tag := distribution.getTagForChunk bson chunk
    if info.hasTag tag then violatingChunks shard info rest
    else if chunk.isJumbo then violatingChunks shard info rest
    else
      let toShard := distribution.getBestReceieverShard tag
      if toShard = "" then violatingChunks shard info rest
      else if toShard = shard then .error .sameShard
      else .ok (some (migration ns toShard shard chunk))

-- 2) Tag violations.
def violatingShards : List String → Except Fault (Option (MigrateInfo ν))
  | [] => .ok none
  | shard :: rest =>
    match distribution.findInfo shard,distribution.getChunks shard with
    | .error fault,_ => .error fault
    | _,.error fault => .error fault
    | .ok info,.ok chunks =>
      match violatingChunks bson ns distribution shard info chunks with
      | .error fault => .error fault
      | .ok (some move) => .ok (some move)
      | .ok none => violatingShards rest

def getThreshold (balancedLastTime : Int) : Int :=
  if balancedLastTime ≠ 0 ∨ distribution.totalChunks < 20 then 2
  else if distribution.totalChunks < 80 then 4
  else 8

-- 3) Balance for each tag, in the order that the shuffle has left.
def balanceTags (threshold : Int) : List String → Except Fault (Option (MigrateInfo ν))
  | [] => .ok none
  | tag :: rest =>
    let fromShard := distribution.getMostOverloadedShard bson tag
    if fromShard = "" then balanceTags threshold rest
    else
      let max := distribution.numberOfChunksInShardWithTag bson fromShard tag
      if max = 0 then balanceTags threshold rest
      else
        let toShard := distribution.getBestReceieverShard tag
        if toShard = "" then .ok none
        else
          let min := distribution.numberOfChunksInShardWithTag bson toShard tag
          if (max : Int)-min < threshold then balanceTags threshold rest
          else
            match distribution.getChunks fromShard with
            | .error fault => .error fault
            | .ok chunks =>
              let tagged := chunks.filter fun chunk => distribution.getTagForChunk bson chunk == tag
              match tagged.find? fun chunk => !chunk.isJumbo with
              | some chunk => .ok (some (migration ns toShard fromShard chunk))
              | none => if tagged.length ≠ 0 then balanceTags threshold rest else .error .nothingToMove

def balance (balancedLastTime : Int) (tags : List String) : Except Fault (Option (MigrateInfo ν)) :=
  match drainShards bson ns distribution distribution.shards with
  | .error fault => .error fault
  | .ok (some move) => .ok (some move)
  | .ok none =>
    let violating :=
      if distribution.allTags.length > 0 then violatingShards bson ns distribution distribution.shards
      else .ok none
    match violating with
    | .error fault => .error fault
    | .ok (some move) => .ok (some move)
    | .ok none => balanceTags bson ns distribution (getThreshold distribution balancedLastTime) tags

end

end Mongo.Balancer
