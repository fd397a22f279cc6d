import Mathlib.Algebra.Order.BigOperators.Group.List
import Mathlib.Algebra.Ring.Int.Defs
import Mathlib.Data.List.Induction
import Mathlib.Data.List.TakeWhile

namespace Mongo.BatchWrite

inductive BatchType where
  | insert | update | delete
  deriving DecidableEq

-- Everything from completed on is final.
inductive WriteOpState where
  | ready | pending | completed | error | cancelled
  deriving DecidableEq

-- The twelve bytes of an OID as one number, first byte highest, as memcmp has it.
structure ChunkVersion where
  combined : BitVec 64
  epoch : BitVec 96
  deriving DecidableEq

-- Zero time, and the highest machine and increment.
def ignored : ChunkVersion := ⟨0,18446744073709551615⟩

structure ShardEndpoint where
  shardName : String
  shardVersion : ChunkVersion
  deriving DecidableEq

-- Whether an error says that the shard is in a migration's critical section, or what
-- caused it when several errors were put together.
inductive ErrInfo where
  | stale (inCriticalSection : Bool)
  | causedBy (errors : List (Int × String))
  deriving DecidableEq

structure WriteErrorDetail where
  errCode : Int
  errMessage : String
  errInfo : Option ErrInfo
  index : Int
  deriving DecidableEq

structure Status where
  code : Int
  reason : String
  deriving DecidableEq

def staleShardVersion : Int := 63
def writeConcernFailed : Int := 64
def multipleErrorsOccurred : Int := 65
def noProgressMade : Int := 82
def remoteResultsUnavailable : Int := 83

structure TargetedWrite where
  endpoint : ShardEndpoint
  writeOpRef : Nat × Nat
  deriving DecidableEq

structure ChildWriteOp where
  state : WriteOpState
  pendingWrite : Option TargetedWrite
  endpoint : Option ShardEndpoint
  error : Option WriteErrorDetail

structure Item (Doc : Type) where
  query : Doc
  document : Doc

structure WriteOp (Doc : Type) where
  itemIndex : Nat
  item : Item Doc
  state : WriteOpState
  childOps : List ChildWriteOp
  history : List ChildWriteOp
  error : Option WriteErrorDetail

structure BatchedCommandRequest (Doc : Type) where
  ns : String
  batchType : BatchType
  isInsertIndexRequest : Bool
  ordered : Bool
  isVerboseWC : Bool
  items : List (Item Doc)

structure NSTargeter (Doc : Type) where
  targetInsert : Doc → Except Status ShardEndpoint
  targetUpdate : Item Doc → Except Status (List ShardEndpoint)
  targetDelete : Doc → Except Status (List ShardEndpoint)
  targetCollection : Except Status (List ShardEndpoint)
  targetAllShards : Except Status (List ShardEndpoint)

namespace WriteOp

def firstEndpoints (targeter : NSTargeter Doc) (request : BatchedCommandRequest Doc) (item : Item Doc) :
    Except Status (List ShardEndpoint) :=
  match request.batchType with
  | .update => targeter.targetUpdate item
  | .delete => targeter.targetDelete item.query
  | .insert =>
    if request.isInsertIndexRequest then targeter.targetCollection
    else (targeter.targetInsert item.document).map fun endpoint => [endpoint]

-- A write for more than one endpoint goes everywhere: half of one cannot be retried.
def endpoints (targeter : NSTargeter Doc) (request : BatchedCommandRequest Doc) (item : Item Doc) :
    Except Status (List ShardEndpoint) :=
  match firstEndpoints targeter request item with
  | .error status => .error status
  | .ok targeted =>
    if targeted.length > 1 ∧ request.isInsertIndexRequest = false then targeter.targetAllShards
    else .ok targeted

-- Several endpoints imply no versioning.
def writeEndpoint (targeted : List ShardEndpoint) (endpoint : ShardEndpoint) : ShardEndpoint :=
  if targeted.length = 1 then endpoint else ⟨endpoint.shardName,ignored⟩

def childWrites (op : WriteOp Doc) (targeted : List ShardEndpoint) : List TargetedWrite :=
  targeted.mapIdx fun place endpoint =>
    ⟨writeEndpoint targeted endpoint,op.itemIndex,op.childOps.length+place⟩

def pendingChild (write : TargetedWrite) : ChildWriteOp := ⟨.pending,some write,none,none⟩

def targetWrites (targeter : NSTargeter Doc) (request : BatchedCommandRequest Doc) (op : WriteOp Doc) :
    Except Status (WriteOp Doc × List TargetedWrite) :=
  match endpoints targeter request op.item with
  | .error status => .error status
  | .ok targeted =>
    .ok ({ op with
      childOps := op.childOps++(op.childWrites targeted).map pendingChild
      state := .pending },op.childWrites targeted)

def isRetryErrCode (errCode : Int) : Bool := errCode == staleShardVersion

def combineOpErrors (errors : List WriteErrorDetail) : WriteErrorDetail :=
  match errors with
  | [error] => error
  | _ => ⟨multipleErrorsOccurred,"multiple errors for op : " ++ " :: and :: ".intercalate (errors.map (·.errMessage)),
      some (.causedBy (errors.map fun error => (error.errCode,error.errMessage))),
      (errors.head?.map (·.index)).getD 0⟩

def isFinal (child : ChildWriteOp) : Bool := child.state == .completed || child.state == .error

def childErrors (children : List ChildWriteOp) : List WriteErrorDetail :=
  (children.filter fun child => child.state == .error).filterMap (·.error)

def updateOpState (op : WriteOp Doc) : WriteOp Doc :=
  if op.childOps.all isFinal = false then op
  else
    let errors := childErrors op.childOps
    let settled :=
      if errors ≠ [] ∧ errors.all (fun error => isRetryErrCode error.errCode) = true then
        { op with state := .ready }
      else if errors ≠ [] then { op with state := .error, error := some (combineOpErrors errors) }
      else { op with state := .completed }
    { settled with history := op.history++op.childOps, childOps := [] }

def cancelChild (why : Option WriteErrorDetail) (child : ChildWriteOp) : ChildWriteOp :=
  if child.state = .pending then
    { child with
      endpoint := child.pendingWrite.map (·.endpoint)
      error := why.or child.error
      state := .cancelled }
  else child

def cancelWrites (op : WriteOp Doc) (why : Option WriteErrorDetail) : WriteOp Doc :=
  { op with history := op.history++op.childOps.map (cancelChild why), childOps := [], state := .ready }

def completeChild (write : TargetedWrite) (child : ChildWriteOp) : ChildWriteOp :=
  { child with pendingWrite := none, endpoint := some write.endpoint, state := .completed }

def noteWriteComplete (op : WriteOp Doc) (write : TargetedWrite) : WriteOp Doc :=
  updateOpState { op with childOps := op.childOps.modify write.writeOpRef.2 (completeChild write) }

def failChild (write : TargetedWrite) (error : WriteErrorDetail) (index : Nat) (child : ChildWriteOp) : ChildWriteOp :=
  { child with
    pendingWrite := none
    endpoint := some write.endpoint
    error := some { error with index := index }
    state := .error }

def noteWriteError (op : WriteOp Doc) (write : TargetedWrite) (error : WriteErrorDetail) : WriteOp Doc :=
  updateOpState
    { op with childOps := op.childOps.modify write.writeOpRef.2 (failChild write error op.itemIndex) }

def setOpError (op : WriteOp Doc) (error : WriteErrorDetail) : WriteOp Doc :=
  { op with error := some { error with index := op.itemIndex }, state := .error }

end WriteOp

open List hiding and cons nil

def compareNames (first second : String) : Int :=
  if first < second then -1 else if first = second then 0 else 1

def compareEpochs (first second : BitVec 96) : Int :=
  if first < second then -1 else if first = second then 0 else 1

-- The difference of the versions is a long and is returned as an int.
def compareEndpoints (endpointA endpointB : ShardEndpoint) : Int :=
  let shardNameDiff := compareNames endpointA.shardName endpointB.shardName
  if shardNameDiff ≠ 0 then shardNameDiff
  else
    let shardVersionDiff := endpointA.shardVersion.combined-endpointB.shardVersion.combined
    if shardVersionDiff.toInt ≠ 0 then (shardVersionDiff.setWidth 32).toInt
    else compareEpochs endpointA.shardVersion.epoch endpointB.shardVersion.epoch

def endpointComp (endpointA endpointB : ShardEndpoint) : Bool :=
  decide (compareEndpoints endpointA endpointB < 0)

structure TargetedWriteBatch where
  endpoint : ShardEndpoint
  writes : List TargetedWrite
  deriving DecidableEq

structure Grouped where
  batch : TargetedWriteBatch
  numOps : Nat
  sizeBytes : Nat

-- Keys are the same when neither comes before the other; entries are in their order.
def sameKey (endpointA endpointB : ShardEndpoint) : Bool :=
  !endpointComp endpointA endpointB && !endpointComp endpointB endpointA

def findGroup (groups : List Grouped) (endpoint : ShardEndpoint) : Option Grouped :=
  groups.find? fun group => sameKey group.batch.endpoint endpoint

def insertGroup (group : Grouped) : List Grouped → List Grouped
  | [] => [group]
  | first :: rest =>
    if endpointComp group.batch.endpoint first.batch.endpoint then group :: first :: rest
    else first :: insertGroup group rest

def isNewBatchRequired (writes : List TargetedWrite) (groups : List Grouped) : Bool :=
  writes.any fun write => (findGroup groups write.endpoint).isNone

def maxWriteBatchSize : Nat := 1000
def bsonObjMaxUserSize : Nat := 16777216
def estOverheadBytes : Nat := 163

def getWriteSizeBytes (objsize : Doc → Nat) (request : BatchedCommandRequest Doc) (item : Item Doc) : Nat :=
  match request.batchType with
  | .insert => objsize item.document
  | .update => objsize item.query+objsize item.document+estOverheadBytes
  | .delete => objsize item.query+estOverheadBytes

def wouldMakeBatchesTooBig (writes : List TargetedWrite) (writeSizeBytes : Nat) (groups : List Grouped) : Bool :=
  writes.any fun write =>
    match findGroup groups write.endpoint with
    | none => false
    | some group =>
      decide (group.numOps ≥ maxWriteBatchSize) ||
        decide (group.sizeBytes+writeSizeBytes > bsonObjMaxUserSize)

def Grouped.add (write : TargetedWrite) (writeSizeBytes : Nat) (group : Grouped) : Grouped :=
  ⟨{ group.batch with writes := group.batch.writes++[write] },group.numOps+1,group.sizeBytes+writeSizeBytes⟩

def addToGroup (write : TargetedWrite) (writeSizeBytes : Nat) : List Grouped → List Grouped
  | [] => []
  | first :: rest =>
    if sameKey first.batch.endpoint write.endpoint then first.add write writeSizeBytes :: rest
    else first :: addToGroup write writeSizeBytes rest

def addWrite (writeSizeBytes : Nat) (groups : List Grouped) (write : TargetedWrite) : List Grouped :=
  match findGroup groups write.endpoint with
  | some _ => addToGroup write writeSizeBytes groups
  | none => insertGroup (Grouped.add write writeSizeBytes ⟨⟨write.endpoint,[]⟩,0,0⟩) groups

def buildTargetError (status : Status) : WriteErrorDetail := ⟨status.code,status.reason,none,0⟩

def cancelBatches (why : WriteErrorDetail) (ops : List (WriteOp Doc)) (groups : List Grouped) : List (WriteOp Doc) :=
  (groups.flatMap fun group => group.batch.writes).foldl
    (fun ops write => ops.modify write.writeOpRef.1 fun op => op.cancelWrites (some why)) ops

-- The counts are ints, to which long longs are added.
def asInt (count : Int) : Int := count.bmod 4294967296

structure BatchWriteStats where
  numInserted : Int
  numUpserted : Int
  numMatched : Int
  numModified : Int
  numDeleted : Int

structure WCErrorDetail where
  errCode : Int
  errMessage : String
  deriving DecidableEq

structure BatchedUpsertDetail (Doc : Type) where
  index : Int
  upsertedID : Doc
  deriving DecidableEq

structure BatchedCommandResponse (Doc : Type) where
  ok : Bool
  errCode : Int
  errMessage : String
  n : Int
  nModified : Int
  upsertDetails : List (BatchedUpsertDetail Doc)
  errDetails : List WriteErrorDetail
  writeConcernError : Option WCErrorDetail

structure BatchWriteOp (Doc : Type) where
  request : BatchedCommandRequest Doc
  ops : List (WriteOp Doc)
  wcErrors : List (ShardEndpoint × WCErrorDetail)
  upsertedIds : List (BatchedUpsertDetail Doc)
  stats : BatchWriteStats

def initClientRequest (request : BatchedCommandRequest Doc) : BatchWriteOp Doc :=
  ⟨request,request.items.mapIdx fun index item => ⟨index,item,.ready,[],[],none⟩,[],[],⟨0,0,0,0,0⟩⟩

section
variable (objsize : Doc → Nat) (targeter : NSTargeter Doc) (request : BatchedCommandRequest Doc)
  (recordTargetErrors : Bool)

-- It ends where an ordered batch has to be sent before it can go on, or at a write that cannot be targeted.
def targetLoop : List (WriteOp Doc) → List Grouped → List (WriteOp Doc) × List Grouped × Option Status
  | [],groups => ([],groups,none)
  | op :: rest,groups =>
    let onward := fun (op : WriteOp Doc) (groups : List Grouped) =>
      let (following,groups,status) := targetLoop rest groups
      (op :: following,groups,status)
    if op.state ≠ .ready then onward op groups
    else
      match op.targetWrites targeter request with
      | .error status =>
        if recordTargetErrors = false then (op :: rest,groups,some status)
        else if request.ordered = false ∨ groups = [] then
          let failed := op.setOpError (buildTargetError status)
          if request.ordered then (failed :: rest,groups,none) else onward failed groups
        else (op.cancelWrites (some (buildTargetError status)) :: rest,groups,none)
      | .ok (targeted,writes) =>
        let writeSizeBytes := getWriteSizeBytes objsize request op.item
        if request.ordered = true ∧ groups ≠ [] ∧ isNewBatchRequired writes groups = true then
          (targeted.cancelWrites none :: rest,groups,none)
        else if wouldMakeBatchesTooBig writes writeSizeBytes groups then
          (targeted.cancelWrites none :: rest,groups,none)
        else
          let groups := writes.foldl (addWrite writeSizeBytes) groups
          if request.ordered = true ∧ groups.length > 1 then (targeted :: rest,groups,none)
          else onward targeted groups

end

def targetBatch (objsize : Doc → Nat) (targeter : NSTargeter Doc) (recordTargetErrors : Bool)
    (batchOp : BatchWriteOp Doc) : BatchWriteOp Doc × Except Status (List TargetedWriteBatch) :=
  match targetLoop objsize targeter batchOp.request recordTargetErrors batchOp.ops [] with
  | (ops,groups,some status) =>
    ({ batchOp with ops := cancelBatches (buildTargetError status) ops groups },.error status)
  | (ops,groups,none) =>
    ({ batchOp with ops := ops }, .ok ((groups.map (·.batch)).filter fun batch => !batch.writes.isEmpty))

structure ChildRequest (Doc : Type) where
  items : List (Item Doc)
  ordered : Bool
  shardName : String
  shardVersion : ChunkVersion

def buildBatchRequest (batchOp : BatchWriteOp Doc) (batch : TargetedWriteBatch) : ChildRequest Doc :=
  ⟨batch.writes.filterMap fun write => batchOp.request.items[write.writeOpRef.1]?,
    batchOp.request.ordered,batch.endpoint.shardName,batch.endpoint.shardVersion⟩

def incBatchStats (batchType : BatchType) (response : BatchedCommandResponse Doc)
    (stats : BatchWriteStats) : BatchWriteStats :=
  match batchType with
  | .insert => { stats with numInserted := asInt (stats.numInserted+response.n) }
  | .update =>
    let numUpserted := response.upsertDetails.length
    { stats with
      numMatched := asInt (stats.numMatched+(response.n-numUpserted))
      -- -1 is kept for "omit the field"
      numModified := if response.nModified ≥ 0 then asInt (stats.numModified+response.nModified) else -1
      numUpserted := asInt (stats.numUpserted+numUpserted) }
  | .delete => { stats with numDeleted := asInt (stats.numDeleted+response.n) }

-- The answers go to the operations one after the other; behind an error an ordered batch is cancelled.
def noteWrites (ordered : Bool) : List TargetedWrite → Nat → List WriteErrorDetail →
    Option WriteErrorDetail → List (WriteOp Doc) → List (WriteOp Doc)
  | [],_,_,_,ops => ops
  | write :: writes,index,itemErrors,lastError,ops =>
    match itemErrors with
    | error :: others =>
      if error.index = index then
        noteWrites ordered writes (index+1) others (some error)
          (ops.modify write.writeOpRef.1 fun op => op.noteWriteError write error)
      else
        noteWrites ordered writes (index+1) itemErrors lastError
          (ops.modify write.writeOpRef.1 fun op =>
            if ordered = false ∨ lastError = none then op.noteWriteComplete write
            else op.cancelWrites lastError)
    | [] =>
      noteWrites ordered writes (index+1) [] lastError
        (ops.modify write.writeOpRef.1 fun op =>
          if ordered = false ∨ lastError = none then op.noteWriteComplete write
          else op.cancelWrites lastError)

def sortErrors (errors : List WriteErrorDetail) : List WriteErrorDetail :=
  errors.mergeSort fun first second => decide (first.index ≤ second.index)

def noteUpserts (batch : TargetedWriteBatch) (details : List (BatchedUpsertDetail Doc)) :
    List (BatchedUpsertDetail Doc) :=
  details.filterMap fun detail =>
    (batch.writes[detail.index.toNat]?).map fun write => ⟨write.writeOpRef.1,detail.upsertedID⟩

def noteOkResponse (batch : TargetedWriteBatch) (response : BatchedCommandResponse Doc)
    (batchOp : BatchWriteOp Doc) : BatchWriteOp Doc :=
  { batchOp with
    stats := incBatchStats batchOp.request.batchType response batchOp.stats
    wcErrors := batchOp.wcErrors ++ (response.writeConcernError.map fun error => (batch.endpoint,error)).toList
    ops := noteWrites batchOp.request.ordered batch.writes 0 (sortErrors response.errDetails) none
      batchOp.ops
    upsertedIds := batchOp.upsertedIds++noteUpserts batch response.upsertDetails }

def toWriteErrorResponse (error : WriteErrorDetail) (ordered : Bool) (numWrites : Nat) : BatchedCommandResponse Doc :=
  { ok := true, errCode := 0, errMessage := "", n := 0, nModified := 0, upsertDetails := []
    errDetails := (List.range (if ordered then 1 else numWrites)).map fun place =>
      { error with index := place }
    writeConcernError := none }

def noteBatchError (batch : TargetedWriteBatch) (error : WriteErrorDetail) (batchOp : BatchWriteOp Doc) :
    BatchWriteOp Doc :=
  noteOkResponse batch (toWriteErrorResponse error batchOp.request.ordered batch.writes.length) batchOp

def noteBatchResponse (batch : TargetedWriteBatch) (response : BatchedCommandResponse Doc)
    (batchOp : BatchWriteOp Doc) : BatchWriteOp Doc :=
  if response.ok = false then noteBatchError batch ⟨response.errCode,response.errMessage,none,0⟩ batchOp
  else noteOkResponse batch response batchOp

-- The stale version errors of a response; those of a failed command are not tracked.
def trackErrors (batch : TargetedWriteBatch) (response : BatchedCommandResponse Doc) :
    List (ShardEndpoint × WriteErrorDetail) :=
  if response.ok = false then []
  else ((sortErrors response.errDetails).filter fun error => error.errCode == staleShardVersion).map
    fun error => (batch.endpoint,error)

def unfinished (state : WriteOpState) : Bool := state == .ready || state == .pending

def abortOps (error : WriteErrorDetail) (ordered : Bool) : List (WriteOp Doc) → List (WriteOp Doc)
  | [] => []
  | op :: rest =>
    if unfinished op.state then
      if ordered then op.setOpError error :: rest
      else op.setOpError error :: abortOps error ordered rest
    else op :: abortOps error ordered rest

def abortBatch (error : WriteErrorDetail) (batchOp : BatchWriteOp Doc) : BatchWriteOp Doc :=
  { batchOp with ops := abortOps error batchOp.request.ordered batchOp.ops }

def finishedOps (ordered : Bool) : List (WriteOp Doc) → Bool
  | [] => true
  | op :: rest =>
    if unfinished op.state then false
    else if ordered = true ∧ op.state = .error then true
    else finishedOps ordered rest

def isFinished (batchOp : BatchWriteOp Doc) : Bool := finishedOps batchOp.request.ordered batchOp.ops

def numWriteOpsIn (state : WriteOpState) (batchOp : BatchWriteOp Doc) : Nat :=
  (batchOp.ops.filter fun op => op.state == state).length

def combineWCErrors (errors : List (ShardEndpoint × WCErrorDetail)) : Option WCErrorDetail :=
  let texts := " :: and :: ".intercalate
    (errors.map fun error => error.2.errMessage ++ " at " ++ error.1.shardName)
  match errors with
  | [] => none
  | [error] => some ⟨error.2.errCode,texts⟩
  | _ => some ⟨writeConcernFailed,"multiple errors reported : " ++ texts⟩

structure ClientResponse (Doc : Type) where
  errDetails : List WriteErrorDetail
  writeConcernError : Option WCErrorDetail
  upsertDetails : List (BatchedUpsertDetail Doc)
  n : Option Int
  nModified : Option Int
  deriving DecidableEq

def opErrors (ops : List (WriteOp Doc)) : List WriteErrorDetail :=
  (ops.filter fun op => op.state == .error).filterMap (·.error)

-- A client that has not asked for the outcome only gets that the command was run.
def buildClientResponse (batchOp : BatchWriteOp Doc) : ClientResponse Doc :=
  if batchOp.request.isVerboseWC = false then ⟨[],none,[],none,none⟩
  else
    let errOps := batchOp.ops.filter fun op => op.state == .error
    let reportWCError := errOps.isEmpty ||
      (!batchOp.request.ordered && decide (errOps.length < batchOp.ops.length))
    { errDetails := opErrors batchOp.ops
      writeConcernError := if reportWCError then combineWCErrors batchOp.wcErrors else none
      upsertDetails := batchOp.upsertedIds
      n := some (asInt (batchOp.stats.numInserted+batchOp.stats.numUpserted+batchOp.stats.numMatched+
        batchOp.stats.numDeleted))
      nModified :=
        if batchOp.request.batchType = .update ∧ batchOp.stats.numModified ≥ 0 then
          some batchOp.stats.numModified
        else none }

section
variable {responses : List (TargetedWriteBatch × BatchedCommandResponse Doc)}

def noteResponses (batchOp : BatchWriteOp Doc) (responses : List (TargetedWriteBatch × BatchedCommandResponse Doc)) :
    BatchWriteOp Doc :=
  responses.foldl (fun batchOp response => noteBatchResponse response.1 response.2 batchOp) batchOp

def addModified (total value : Int) : Int := if value ≥ 0 then asInt (total+value) else -1

theorem noteResponses_modified (batchOp : BatchWriteOp Doc) (update : batchOp.request.batchType = .update)
    (ok : ∀ response ∈ responses, response.2.ok = true) : (noteResponses batchOp responses).request = batchOp.request ∧
      (noteResponses batchOp responses).stats.numModified =
        (responses.map (·.2.nModified)).foldl addModified batchOp.stats.numModified := by
  induction responses generalizing batchOp with
  | nil => exact ⟨rfl,rfl⟩
  | cons first rest ih =>
    obtain ⟨first_ok,others⟩ := forall_mem_cons.mp ok
    have noted : noteBatchResponse first.1 first.2 batchOp = noteOkResponse first.1 first.2 batchOp := by
      simp [noteBatchResponse,first_ok]
    rw [noteResponses,foldl_cons,noted,← noteResponses]
    obtain ⟨request,modified⟩ := ih (noteOkResponse first.1 first.2 batchOp) update others
    refine ⟨request,modified.trans ?_⟩
    simp only [noteOkResponse,incBatchStats,update]
    rfl

-- A value is added to the sentinel too, so what counts is behind the last missing one.
theorem addModified_total (values : List Int) : values.foldl addModified 0 =
    asInt (if ∀ value ∈ values, 0 ≤ value then values.sum else (values.reverse.takeWhile (0 ≤ ·)).sum-1) := by
  induction values using reverseRecOn with
  | nil => simp [asInt]
  | append_singleton before last ih =>
    simp only [foldl_append,foldl_cons,foldl_nil,ih,addModified,reverse_append,reverse_singleton,
      singleton_append,takeWhile_cons,forall_mem_append,forall_mem_singleton,sum_append]
    by_cases present : 0 ≤ last
    · simp only [present,and_true,decide_true,if_true,asInt,Int.bmod_add_bmod]
      split
      · simp
      · rw [sum_cons]
        congr 1
        omega
    · simp [present,asInt]

theorem nModified_reported (request : BatchedCommandRequest Doc) (update : request.batchType = .update)
    (ok : ∀ response ∈ responses, response.2.ok = true) : let values := responses.map (·.2.nModified)
    (buildClientResponse (noteResponses (initClientRequest request) responses)).nModified =
        (if ∀ value ∈ values, 0 ≤ value then some values.sum else none) ↔
      if request.isVerboseWC then
        if ∀ value ∈ values, 0 ≤ value then values.sum < 2147483648 else asInt ((values.reverse.takeWhile (0 ≤ ·)).sum-1) < 0
      else ∃ value ∈ values, value < 0 := by
  intro values
  obtain ⟨same,modified⟩ := noteResponses_modified (initClientRequest request) update ok
  have same : (noteResponses (initClientRequest request) responses).request = request := same
  have modified := modified.trans (addModified_total values)
  rw [buildClientResponse,same]
  split
  · rename_i silent
    simp [silent]
  · rename_i verbose
    simp only [update,modified,verbose]
    by_cases present : ∀ value ∈ values, 0 ≤ value
    · have low := sum_nonneg present
      simp only [if_pos present,asInt,Int.bmod_def]
      grind
    · simp only [if_neg present]
      grind

end

def sampleUpdate : BatchedCommandRequest Nat := ⟨"db.c",.update,false,false,true,[⟨1,2⟩]⟩

def sampleAnswer (shardName : String) (child : Nat) (nModified : Int) : TargetedWriteBatch × BatchedCommandResponse Nat :=
  (⟨⟨shardName,ignored⟩,[⟨⟨shardName,ignored⟩,0,child⟩]⟩,⟨true,0,"",9,nModified,[],[],none⟩)

-- The second sum leaves the ints.
theorem missing_nModified_lost : (buildClientResponse (noteResponses (initClientRequest sampleUpdate)
      [sampleAnswer "a" 0 (-1),sampleAnswer "b" 1 5])).nModified = some 4 ∧
    (buildClientResponse (noteResponses (initClientRequest sampleUpdate)
      [sampleAnswer "a" 0 2147483647,sampleAnswer "b" 1 1])).nModified = none := ⟨rfl,rfl⟩

theorem nModified_reported_sample : (buildClientResponse (noteResponses (initClientRequest sampleUpdate)
    [sampleAnswer "b" 1 5,sampleAnswer "a" 0 (-1)])).nModified = none :=
  (nModified_reported sampleUpdate rfl (by simp [sampleAnswer])).mpr (by decide)

end Mongo.BatchWrite
