import SipxExternals.FoundationsRuns
import SipxExternals.MongoWriteOp

namespace Mongo.BatchWrite
open Foundations.Runs

-- The targeter, the resolver, the dispatcher and the shards. The next answer is for one of the batches that are out.
structure Environment (World Host Doc : Type) where
  objsize : Doc → Nat
  targeter : World → NSTargeter Doc
  noteCouldNotTarget : World → World
  noteStaleResponse : World → ShardEndpoint → Option ErrInfo → World
  refreshIfNeeded : World → World × Bool
  chooseWriteHost : World → String → World × Except Status Host
  addCommand : World → Host → ChildRequest Doc → World
  sendAll : World → World
  recvAny : World → World × Nat × Except Status (BatchedCommandResponse Doc)
  hostText : Host → String
  statusText : Status → String

inductive Phase (Doc : Type) where
  | batch
  | pass
  | send (place : Nat)
  | recv
  | round
  | done (response : ClientResponse Doc)
  deriving DecidableEq

-- A batch that was sent or given up is none in childBatches. From pendingBatches a
-- batch is taken when its answer is there: nobody looks for it any more.
structure Exec (World Host Doc : Type) where
  batchOp : BatchWriteOp Doc
  world : World
  refreshedTargeter : Bool
  rounds : Nat
  numCompletedOps : Nat
  numRoundsWithoutProgress : Nat
  childBatches : List (Option TargetedWriteBatch)
  numSent : Nat
  numToSend : Nat
  remoteMetadataChanging : Bool
  pendingBatches : List (Host × TargetedWriteBatch)
  phase : Phase Doc

def start (request : BatchedCommandRequest Doc) (world : World) : Exec World Host Doc :=
  ⟨initClientRequest request,world,false,0,0,0,[],0,0,false,[],.batch⟩

def buildErrorFrom (status : Status) : WriteErrorDetail := ⟨status.code,status.reason,none,0⟩

def isShardMetadataChanging (staleErrors : List (ShardEndpoint × WriteErrorDetail)) : Bool :=
  match staleErrors.getLast? with
  | some (_,error) =>
    match error.errInfo with
    | some (.stale inCriticalSection) => inCriticalSection
    | _ => false
  | none => false

def kMaxRoundsWithoutProgress : Nat := 5

def Exec.noProgress (s : Exec World Host Doc) : WriteErrorDetail :=
  buildErrorFrom ⟨noProgressMade,"no progress was made executing batch write op in " ++
    s.batchOp.request.ns ++ " after " ++ toString kMaxRoundsWithoutProgress ++ " rounds (" ++
    toString s.numCompletedOps ++ " ops completed in " ++ toString s.rounds ++ " rounds total)"⟩

def Exec.idleRounds (targeterChanged : Bool) (s : Exec World Host Doc) : Nat :=
  if numWriteOpsIn .completed s.batchOp = s.numCompletedOps ∧ targeterChanged = false ∧
      s.remoteMetadataChanging = false then s.numRoundsWithoutProgress+1
  else 0

def Exec.finish (s : Exec World Host Doc) : Exec World Host Doc :=
  { s with phase := .done (buildClientResponse s.batchOp) }

section
variable [DecidableEq Host] (env : Environment World Host Doc)

def target (s : Exec World Host Doc) : Exec World Host Doc :=
  let (batchOp,targeted) := targetBatch env.objsize (env.targeter s.world) s.refreshedTargeter s.batchOp
  let s := { s with batchOp := batchOp, numSent := 0, remoteMetadataChanging := false, phase := .pass }
  match targeted with
  | .error _ =>
    { s with
      world := env.noteCouldNotTarget s.world
      refreshedTargeter := true
      childBatches := []
      numToSend := 0 }
  | .ok batches => { s with childBatches := batches.map some, numToSend := batches.length }

def sendBatch (place : Nat) (nextBatch : TargetedWriteBatch) (s : Exec World Host Doc) : Exec World Host Doc :=
  let (world,resolved) := env.chooseWriteHost s.world nextBatch.endpoint.shardName
  let s := { s with world := world, phase := .send (place+1) }
  match resolved with
  | .error status =>
    { s with
      batchOp := noteBatchError nextBatch (buildErrorFrom status) s.batchOp
      childBatches := s.childBatches.set place none
      numToSend := s.numToSend-1 }
  | .ok shardHost =>
    if s.pendingBatches.any fun pending => pending.1 = shardHost then s
    else
      { s with
        world := env.addCommand world shardHost (buildBatchRequest s.batchOp nextBatch)
        childBatches := s.childBatches.set place none
        pendingBatches := s.pendingBatches++[(shardHost,nextBatch)] }

def unavailable (shardHost : Host) (status : Status) : WriteErrorDetail :=
  buildErrorFrom ⟨remoteResultsUnavailable,"write results unavailable from " ++ env.hostText shardHost ++
    " :: caused by :: " ++ env.statusText status⟩

def receive (s : Exec World Host Doc) : Exec World Host Doc :=
  let (world,choice,answer) := env.recvAny s.world
  let place := choice%s.pendingBatches.length
  match s.pendingBatches[place]? with
  | none => s
  | some (shardHost,batch) =>
    let s := { s with world := world, pendingBatches := s.pendingBatches.eraseIdx place }
    match answer with
    | .ok response =>
      let staleErrors := trackErrors batch response
      { s with
        world := staleErrors.foldl (fun world error =>
          env.noteStaleResponse world error.1 error.2.errInfo) s.world
        batchOp := noteBatchResponse batch response s.batchOp
        remoteMetadataChanging := s.remoteMetadataChanging || isShardMetadataChanging staleErrors }
    | .error status =>
      { s with batchOp := noteBatchError batch (unavailable env shardHost status) s.batchOp }

def endRound (s : Exec World Host Doc) : Exec World Host Doc :=
  let s := { s with rounds := s.rounds+1 }
  if isFinished s.batchOp then s.finish
  else
    let (world,targeterChanged) := env.refreshIfNeeded s.world
    let s := { s with
      world := world
      numRoundsWithoutProgress := s.idleRounds targeterChanged
      numCompletedOps := numWriteOpsIn .completed s.batchOp }
    if s.numRoundsWithoutProgress > kMaxRoundsWithoutProgress then
      Exec.finish { s with batchOp := abortBatch s.noProgress s.batchOp }
    else { s with phase := .batch }

-- Each phase is the head of a loop of executeBatch, or the end of a round.
def step (s : Exec World Host Doc) : Exec World Host Doc :=
  match s.phase with
  | .batch => if isFinished s.batchOp then s.finish else target env s
  | .pass =>
    if s.numSent = s.numToSend then { s with phase := .round }
    else { s with pendingBatches := [], phase := .send 0 }
  | .send place =>
    match s.childBatches[place]? with
    | none =>
      { s with
        world := env.sendAll s.world
        numSent := s.numSent+s.pendingBatches.length
        phase := .recv }
    | some none => { s with phase := .send (place+1) }
    | some (some nextBatch) => sendBatch env place nextBatch s
  | .recv => if s.pendingBatches = [] then { s with phase := .pass } else receive env s
  | .round => endRound env s
  | .done _ => s

def isDone (s : Exec World Host Doc) : Bool :=
  match s.phase with
  | .done _ => true
  | _ => false

def turn (s : Exec World Host Doc) : Except Empty (Exec World Host Doc) := .ok (step env s)

def executeBatch (turns : Nat) (request : BatchedCommandRequest Doc) (world : World) : Option (ClientResponse Doc) :=
  match run (turn env) isDone turns (start request world) with
  | some (.ok s) =>
    match s.phase with
    | .done response => some response
    | _ => none
  | _ => none

def Sends (s : Exec World Host Doc) (batch : TargetedWriteBatch) : Prop :=
  ∃ place world shardHost, s.phase = .send place ∧ s.childBatches[place]? = some (some batch) ∧
    env.chooseWriteHost s.world batch.endpoint.shardName = (world,.ok shardHost) ∧
    ∀ pending ∈ s.pendingBatches, pending.1 ≠ shardHost

def Reaches : Exec World Host Doc → Exec World Host Doc → Prop :=
  Relation.ReflTransGen (Turn (turn env) isDone)

theorem executeBatch_reaches : (∃ turns, executeBatch env turns request world = some response) ↔
    ∃ s : Exec World Host Doc, Reaches env (start request world) s ∧ s.phase = .done response := by
  constructor
  · rintro ⟨turns,returned⟩
    rw [executeBatch] at returned
    split at returned
    · rename_i s ran
      split at returned
      · rename_i ended
        cases returned
        exact ⟨s,(run_reached ran).1,ended⟩
      · cases returned
    · cases returned
  · rintro ⟨s,reached,ended⟩
    have done : run (turn env) isDone (0+1) s = some (.ok s) := run_final (by simp [isDone,ended])
    obtain ⟨enough,ran⟩ := run_before reached done
    exact ⟨enough,by simp [executeBatch,ran,ended]⟩

end

end Mongo.BatchWrite
