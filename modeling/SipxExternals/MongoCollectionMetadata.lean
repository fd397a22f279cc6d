import SipxExternals.FoundationsSortedMap
import SipxExternals.MongoBsonCompare

namespace Mongo.Metadata
open Foundations.SortedMap (lowerBound upperBound)
open Foundations
variable {ν : Type}

structure Element (ν : Type) where
  fieldName : String
  value : ν
  deriving DecidableEq

abbrev BSONObj (ν : Type) := List (Element ν)

-- What is taken from the BSON library: the comparison of two elements with
-- their field names, MinKey and MaxKey, and the text of an object.
structure Bson (ν : Type) where
  elementCompare : Element ν → Element ν → Int
  minKey : ν
  maxKey : ν
  objString : BSONObj ν → String

structure Keys (ν : Type) extends BsonCompare.KeyValues ν where
  minKey : ν
  maxKey : ν
  least : value minKey = .minKey
  greatest : value maxKey = .maxKey
  objString : BSONObj ν → String

def Keys.bson (keys : Keys ν) : Bson ν where
  elementCompare left right := keys.elementCompare left.fieldName left.value right.fieldName right.value
  minKey := keys.minKey
  maxKey := keys.maxKey
  objString := keys.objString

section
variable (bson : Bson ν)

def woCompare : BSONObj ν → BSONObj ν → Int
  | [],[] => 0
  | [],_ :: _ => -1
  | _ :: _,[] => 1
  | l :: left,r :: right =>
    let x := bson.elementCompare l r
    if x ≠ 0 then x else woCompare left right

-- operator== of objects: its loop ends at the first element that differs.
def equal : BSONObj ν → BSONObj ν → Bool
  | [],right => right.isEmpty
  | _ :: _,[] => false
  | l :: left,r :: right => bson.elementCompare l r = 0 && equal left right

end

structure ChunkVersion where
  minor : BitVec 32
  major : BitVec 32
  epoch : BitVec 96
  deriving DecidableEq

def ChunkVersion.combined (version : ChunkVersion) : Nat := (version.major++version.minor).toNat

def ChunkVersion.isSet (version : ChunkVersion) : Bool := version.combined > 0

def ChunkVersion.incMinor (version : ChunkVersion) : ChunkVersion := { version with minor := version.minor+1 }

def oidString (epoch : BitVec 96) : String :=
  String.ofList ((List.range 24).map fun i => Nat.digitChar (epoch.toNat >>> (4*(23-i))%16))

def ChunkVersion.toString (version : ChunkVersion) : String :=
  ToString.toString version.major.toInt ++ "|" ++ ToString.toString version.minor.toInt ++ "||" ++ oidString version.epoch

section
variable (bson : Bson ν)

abbrev Range (ν : Type) := BSONObj ν × BSONObj ν

abbrev RangeMap (ν : Type) := List (Range ν)

def rangeContains (inclusiveLower exclusiveUpper point : BSONObj ν) : Bool :=
  woCompare bson point inclusiveLower ≥ 0 && woCompare bson point exclusiveUpper < 0

def assign (key value : BSONObj ν) : RangeMap ν → RangeMap ν
  | [] => [(key,value)]
  | range :: rest =>
    if woCompare bson range.1 key < 0 then range :: assign key value rest
    else if woCompare bson key range.1 < 0 then (key,value) :: range :: rest
    else (range.1,value) :: rest

def eraseKey (ranges : RangeMap ν) (key : BSONObj ν) : RangeMap ν :=
  ranges.filter fun range => woCompare bson range.1 key < 0 || woCompare bson key range.1 < 0

def rangeMapOverlapBounds (ranges : RangeMap ν) (inclusiveLower exclusiveUpper : BSONObj ν) : Nat × Nat :=
  let next := lowerBound (woCompare bson) ranges inclusiveLower
  let low :=
    if next = 0 then next
    else match ranges[next-1]? with
      | some previous => if woCompare bson previous.2 inclusiveLower < 1 then next else next-1
      | none => next
  (low,lowerBound (woCompare bson) ranges exclusiveUpper)

-- The loop from the first bound to the second runs off the map when they are in the wrong order.
def getRangeMapOverlap (ranges : RangeMap ν) (inclusiveLower exclusiveUpper : BSONObj ν) : Option (List (Range ν)) :=
  let bounds := rangeMapOverlapBounds bson ranges inclusiveLower exclusiveUpper
  if bounds.1 ≤ bounds.2 then some ((ranges.take bounds.2).drop bounds.1) else none

def rangeMapOverlaps (ranges : RangeMap ν) (inclusiveLower exclusiveUpper : BSONObj ν) : Bool :=
  let bounds := rangeMapOverlapBounds bson ranges inclusiveLower exclusiveUpper
  bounds.1 ≠ bounds.2

def rangeMapContains (ranges : RangeMap ν) (inclusiveLower exclusiveUpper : BSONObj ν) : Bool :=
  let bounds := rangeMapOverlapBounds bson ranges inclusiveLower exclusiveUpper
  match ranges[bounds.1]? with
  | none => false
  | some range => woCompare bson range.1 inclusiveLower = 0 && woCompare bson range.2 exclusiveUpper = 0

def rangeToString (inclusiveLower exclusiveUpper : BSONObj ν) : String :=
  "[" ++ bson.objString inclusiveLower ++ ", " ++ bson.objString exclusiveUpper ++ ")"

def overlapToString (overlap : List (Range ν)) : String :=
  String.intercalate ", " (overlap.map fun range => rangeToString bson range.1 range.2)

end

structure CollectionMetadata (ν : Type) where
  collVersion : ChunkVersion
  shardVersion : ChunkVersion
  keyPattern : BSONObj ν
  pendingMap : RangeMap ν
  chunksMap : RangeMap ν
  rangesMap : RangeMap ν
  deriving DecidableEq

structure ChunkType (ν : Type) where
  min : BSONObj ν
  max : BSONObj ν

-- What a clone function comes to: the new metadata, NULL with an error message,
-- a failing invariant, or an iterator that runs off a map.
inductive Reply (ν : Type) where
  | cloned (metadata : CollectionMetadata ν)
  | refused (errMsg : String)
  | aborted
  | undefined
  deriving DecidableEq

section
variable (bson : Bson ν)

def fillLoop : BSONObj ν → BSONObj ν → RangeMap ν → RangeMap ν → RangeMap ν
  | min,max,ranges,[] => SortedMap.insert (woCompare bson) (min,max) ranges
  | min,max,ranges,(currMin,currMax) :: rest =>
    if min.isEmpty then fillLoop currMin currMax ranges rest
    else if equal bson max currMin then fillLoop min currMax ranges rest
    else fillLoop currMin currMax (SortedMap.insert (woCompare bson) (min,max) ranges) rest

def fillRanges (metadata : CollectionMetadata ν) : CollectionMetadata ν :=
  if metadata.chunksMap.isEmpty then metadata
  else { metadata with rangesMap := fillLoop bson [] [] metadata.rangesMap metadata.chunksMap }

def laterVersion (newVersion current : ChunkVersion) : ChunkVersion :=
  if newVersion.combined > current.combined then newVersion else current

def withChunks (self : CollectionMetadata ν) (chunks : RangeMap ν) (version : ChunkVersion) : CollectionMetadata ν :=
  fillRanges bson
    { keyPattern := self.keyPattern
      pendingMap := self.pendingMap
      chunksMap := chunks
      rangesMap := []
      shardVersion := version
      collVersion := laterVersion version self.collVersion }

def notContained (action : String) (ranges : RangeMap ν) (chunk : ChunkType ν) : Reply ν :=
  let errMsg := "cannot " ++ action ++ " " ++ rangeToString bson chunk.min chunk.max ++
    ", this shard does not contain the chunk"
  if rangeMapOverlaps bson ranges chunk.min chunk.max then
    match getRangeMapOverlap bson ranges chunk.min chunk.max with
    | some overlap => .refused (errMsg ++ " and it overlaps " ++ overlapToString bson overlap)
    | none => .undefined
  else .refused errMsg

def overlapping (action : String) (ranges : RangeMap ν) (chunk : ChunkType ν) : Reply ν :=
  match getRangeMapOverlap bson ranges chunk.min chunk.max with
  | some overlap =>
    .refused ("cannot " ++ action ++ " " ++ rangeToString bson chunk.min chunk.max ++
      " because the chunk overlaps " ++ overlapToString bson overlap)
  | none => .undefined

def cloneMigrate (self : CollectionMetadata ν) (chunk : ChunkType ν) (newShardVersion : ChunkVersion) : Reply ν :=
  if !rangeMapContains bson self.chunksMap chunk.min chunk.max then
    notContained bson "remove chunk" self.chunksMap chunk
  else if self.chunksMap.length = 1 ∧ newShardVersion.isSet then
    .refused ("cannot set shard version to non-zero value " ++ newShardVersion.toString ++
      " when removing last chunk " ++ rangeToString bson chunk.min chunk.max)
  else if self.chunksMap.length ≠ 1 ∧ newShardVersion.combined ≤ self.shardVersion.combined then
    .refused ("cannot remove chunk " ++ rangeToString bson chunk.min chunk.max ++
      " because the new shard version " ++ newShardVersion.toString ++
      " is not greater than the current shard version " ++ self.shardVersion.toString)
  else .cloned (withChunks bson self (eraseKey bson self.chunksMap chunk.min) newShardVersion)

def clonePlusChunk (self : CollectionMetadata ν) (chunk : ChunkType ν) (newShardVersion : ChunkVersion) : Reply ν :=
  if !newShardVersion.isSet then
    .refused ("cannot add chunk " ++ rangeToString bson chunk.min chunk.max ++ " with zero shard version")
  else if ¬woCompare bson chunk.min chunk.max < 0 then .aborted
  else if rangeMapOverlaps bson self.chunksMap chunk.min chunk.max then
    overlapping bson "add chunk" self.chunksMap chunk
  else .cloned (withChunks bson self (SortedMap.insert (woCompare bson) (chunk.min,chunk.max) self.chunksMap) newShardVersion)

def cloneMinusPending (self : CollectionMetadata ν) (pending : ChunkType ν) : Reply ν :=
  if !rangeMapContains bson self.pendingMap pending.min pending.max then
    notContained bson "remove pending chunk" self.pendingMap pending
  else .cloned { self with pendingMap := eraseKey bson self.pendingMap pending.min }

def clonePlusPending (self : CollectionMetadata ν) (pending : ChunkType ν) : Reply ν :=
  if rangeMapOverlaps bson self.chunksMap pending.min pending.max then
    overlapping bson "add pending chunk" self.chunksMap pending
  else if rangeMapOverlaps bson self.pendingMap pending.min pending.max then
    match getRangeMapOverlap bson self.pendingMap pending.min pending.max with
    | some pendingOverlap =>
      let pendingMap := pendingOverlap.foldl (fun ranges range => eraseKey bson ranges range.1) self.pendingMap
      .cloned { self with pendingMap := SortedMap.insert (woCompare bson) (pending.min,pending.max) pendingMap }
    | none => .undefined
  else .cloned { self with pendingMap := SortedMap.insert (woCompare bson) (pending.min,pending.max) self.pendingMap }

-- none: a split key is not above the one before it.
def splitLoop (max : BSONObj ν) : BSONObj ν → List (BSONObj ν) → RangeMap ν → ChunkVersion →
    Option (RangeMap ν × ChunkVersion)
  | _,[],chunks,version => some (chunks,version)
  | startKey,split :: rest,chunks,version =>
    if woCompare bson split startKey > 0 then
      splitLoop max split rest (SortedMap.insert (woCompare bson) (split,max) (assign bson startKey split chunks)) version.incMinor
    else none

def cloneSplit (self : CollectionMetadata ν) (chunk : ChunkType ν) (splitKeys : List (BSONObj ν))
    (newShardVersion : ChunkVersion) : Reply ν :=
  if newShardVersion.combined ≤ self.shardVersion.combined then
    .refused ("cannot split chunk " ++ rangeToString bson chunk.min chunk.max ++ ", new shard version " ++
      newShardVersion.toString ++ " is not greater than current version " ++ self.shardVersion.toString)
  else if !rangeMapContains bson self.chunksMap chunk.min chunk.max then
    notContained bson "split chunk" self.chunksMap chunk
  else
    match splitKeys.find? fun key => !rangeContains bson chunk.min chunk.max key with
    | some key =>
      .refused ("cannot split chunk " ++ rangeToString bson chunk.min chunk.max ++ " at key " ++ bson.objString key)
    | none =>
      match splitLoop bson chunk.max chunk.min splitKeys self.chunksMap newShardVersion with
      | some (chunks,version) => .cloned (withChunks bson self chunks version)
      | none => .aborted

def noHoles : BSONObj ν → List (Range ν) → Bool
  | _,[] => true
  | prevMaxKey,range :: rest => woCompare bson range.1 prevMaxKey = 0 && noHoles range.2 rest

def cloneMerge (self : CollectionMetadata ν) (minKey maxKey : BSONObj ν) (newShardVersion : ChunkVersion) : Reply ν :=
  let errMsg := "cannot merge range " ++ rangeToString bson minKey maxKey
  if newShardVersion.combined ≤ self.shardVersion.combined then
    .refused (errMsg ++ ", new shard version " ++ newShardVersion.toString ++
      " is not greater than current version " ++ self.shardVersion.toString)
  else
    match getRangeMapOverlap bson self.chunksMap minKey maxKey with
    | none => .undefined
    | some [] => .refused (errMsg ++ ", no chunks found in this range")
    | some [_] => .refused (errMsg ++ ", only one chunk found in this range")
    | some (first :: second :: rest) =>
      let overlap := first :: second :: rest
      let validStartEnd := woCompare bson first.1 minKey = 0 ∧ woCompare bson (rest.getLastD second).2 maxKey = 0
      if ¬validStartEnd then
        .refused (errMsg ++ ", overlapping chunks " ++ overlapToString bson overlap ++
          " do not have the same min and max key")
      else if !noHoles bson minKey overlap then
        .refused (errMsg ++ ", overlapping chunks " ++ overlapToString bson overlap ++ " are not all adjacent")
      else
        let chunks := overlap.foldl (fun ranges range => eraseKey bson ranges range.1) self.chunksMap
        .cloned
          { self with
            chunksMap := SortedMap.insert (woCompare bson) (minKey,maxKey) chunks
            shardVersion := newShardVersion
            collVersion := laterVersion newShardVersion self.collVersion }

end

section
variable (bson : Bson ν)

def rangeHolds (ranges : RangeMap ν) (key : BSONObj ν) : Bool :=
  let it := upperBound (woCompare bson) ranges key
  match ranges[if it ≠ 0 then it-1 else it]? with
  | some range => rangeContains bson range.1 range.2 key
  | none => false

def keyBelongsToMe (self : CollectionMetadata ν) (key : BSONObj ν) : Bool :=
  if self.keyPattern.isEmpty then true
  else if self.rangesMap.length ≤ 0 then false
  else rangeHolds bson self.rangesMap key

def keyIsPending (self : CollectionMetadata ν) (key : BSONObj ν) : Bool :=
  if self.keyPattern.isEmpty then false
  else if self.pendingMap.length ≤ 0 then false
  else rangeHolds bson self.pendingMap key

def getMinKey (self : CollectionMetadata ν) : BSONObj ν :=
  self.keyPattern.map fun element => ⟨element.fieldName,bson.minKey⟩

def getMaxKey (self : CollectionMetadata ν) : BSONObj ν :=
  self.keyPattern.map fun element => ⟨element.fieldName,bson.maxKey⟩

def lowerEntry (ranges : RangeMap ν) (key : BSONObj ν) : Option (Range ν) :=
  let upper := upperBound (woCompare bson) ranges key
  if upper ≠ 0 then ranges[upper-1]? else none

def upperEntry (ranges : RangeMap ν) (key : BSONObj ν) : Option (Range ν) :=
  ranges[upperBound (woCompare bson) ranges key]?

def overlapEnd (lower : Option (Range ν)) (lookupKey : BSONObj ν) : Option (BSONObj ν) :=
  match lower with
  | some range => if woCompare bson range.2 lookupKey > 0 then some range.2 else none
  | none => none

def raised (minKey : BSONObj ν) (lower : Option (Range ν)) : BSONObj ν :=
  match lower with
  | some range => if woCompare bson range.2 minKey > 0 then range.2 else minKey
  | none => minKey

def lowered (maxKey : BSONObj ν) (upper : Option (Range ν)) : BSONObj ν :=
  match upper with
  | some range => if woCompare bson range.1 maxKey < 0 then range.1 else maxKey
  | none => maxKey

-- none: the loop is still going on; some none: the function returns false.
def orphanLoop (self : CollectionMetadata ν) : Nat → BSONObj ν → Option (Option (Range ν))
  | 0,_ => none
  | steps+1,lookupKey =>
    if woCompare bson lookupKey (getMaxKey bson self) < 0 then
      let lowerChunk := lowerEntry bson self.chunksMap lookupKey
      match overlapEnd bson lowerChunk lookupKey with
      | some next => orphanLoop self steps next
      | none =>
        let lowerPending := lowerEntry bson self.pendingMap lookupKey
        match overlapEnd bson lowerPending lookupKey with
        | some next => orphanLoop self steps next
        | none =>
          let minKey := raised bson (raised bson (getMinKey bson self) lowerChunk) lowerPending
          let maxKey := lowered bson (lowered bson (getMaxKey bson self) (upperEntry bson self.chunksMap lookupKey))
            (upperEntry bson self.pendingMap lookupKey)
          some (some (minKey,maxKey))
    else some none

def getNextOrphanRange (self : CollectionMetadata ν) (steps : Nat) (origLookupKey : BSONObj ν) : Option (Option (Range ν)) :=
  if self.keyPattern.isEmpty then some none else orphanLoop bson self steps origLookupKey

-- The iteration that the header of getNextOrphanRange describes.
def orphanRanges (self : CollectionMetadata ν) (steps : Nat) : Nat → BSONObj ν → Option (List (Range ν))
  | 0,_ => none
  | rounds+1,lookupKey =>
    match getNextOrphanRange bson self steps lookupKey with
    | none => none
    | some none => some []
    | some (some range) => (orphanRanges self steps rounds range.2).map (range :: ·)

end

end Mongo.Metadata
