import SipxExternals.MongoEndpointOrder
import SipxExternals.MongoOrderedOps

namespace Mongo.OrderedBatch
open BatchWrite EndpointOrder List
open BatchWrite.WriteOp hiding error state item

-- An answer that is OK fills in endpoints, and names no shard twice.
def NamesShards (answer : Except Status (List ShardEndpoint)) : Prop :=
  ∀ endpoints, answer = .ok endpoints → endpoints ≠ [] ∧ (endpoints.map (·.shardName)).Nodup

structure Lawful (targeter : NSTargeter Doc) : Prop where
  update : ∀ item, NamesShards (targeter.targetUpdate item)
  delete : ∀ query, NamesShards (targeter.targetDelete query)
  collection : NamesShards targeter.targetCollection
  allShards : NamesShards targeter.targetAllShards

section
variable {Doc : Type} {op targeted : WriteOp Doc} {ops done before behind waiting fresh : List (WriteOp Doc)}
  {targeter : NSTargeter Doc} {request : BatchedCommandRequest Doc}

theorem firstEndpoints_named (lawful : Lawful targeter) : NamesShards (firstEndpoints targeter request item) := by
  unfold firstEndpoints
  split
  · exact lawful.update item
  · exact lawful.delete item.query
  split
  · exact lawful.collection
  intro endpoints found
  cases inserted : targeter.targetInsert item.document with
  | error status => simp [inserted,Except.map] at found
  | ok endpoint =>
    simp only [inserted,Except.map,Except.ok.injEq] at found
    subst found
    simp

theorem endpoints_named (lawful : Lawful targeter) : NamesShards (endpoints targeter request item) := by
  intro targeted found
  unfold endpoints at found
  split at found
  · cases found
  rename_i first named
  split at found
  · exact lawful.allShards targeted found
  · cases found
    exact firstEndpoints_named lawful targeted named

theorem childWrites_at (fresh : Fresh op) {place : Nat} : (op.childWrites named)[place]? =
      named[place]?.map fun endpoint => ⟨writeEndpoint named endpoint,op.itemIndex,place⟩ := by
  simp [childWrites,fresh.2,getElem?_mapIdx]

theorem childWrites_names (op : WriteOp Doc) (named : List ShardEndpoint) :
    (op.childWrites named).map (·.endpoint.shardName) = named.map (·.shardName) := by
  apply ext_getElem?
  intro place
  simp only [childWrites,getElem?_map,getElem?_mapIdx,Option.map_map]
  congr 1
  funext endpoint
  simp only [Function.comp_apply,writeEndpoint]
  split <;> rfl

theorem childWrites_places (fresh : Fresh op) :
    (op.childWrites named).map (fun write => write.writeOpRef.2) = range named.length := by
  apply ext_getElem?
  intro place
  rw [getElem?_map,childWrites_at fresh,Option.map_map]
  by_cases inside : place < named.length
  · simp [inside]
  · simp [inside]

theorem targetWrites_spread (fresh : Fresh op) (lawful : Lawful targeter)
    (found : op.targetWrites targeter request = .ok (targeted,writes)) :
    targeted.itemIndex = op.itemIndex ∧ targeted.childOps = writes.map pendingChild ∧
      Spread targeted writes ∧ writes ≠ [] ∧ (writes.map (·.endpoint.shardName)).Nodup := by
  unfold targetWrites at found
  split at found
  · cases found
  rename_i named answered
  obtain ⟨some,apart⟩ := endpoints_named lawful named answered
  cases found
  have children : op.childOps++(op.childWrites named).map pendingChild =
      (op.childWrites named).map pendingChild := by rw [fresh.2,nil_append]
  refine ⟨rfl,children,⟨rfl,?_,?_,?_⟩,?_,?_⟩
  · intro write mem
    obtain ⟨place,stored⟩ := mem_iff_getElem?.mp mem
    have own := stored
    rw [childWrites_at fresh] at own
    obtain ⟨endpoint,_,equal⟩ := Option.map_eq_some_iff.mp own
    have ref : write.writeOpRef = (op.itemIndex,place) := by rw [← equal]
    refine ⟨by rw [ref],pendingChild write,?_,rfl⟩
    rw [ref,children,getElem?_map,stored]
    rfl
  · rw [childWrites_places fresh]
    exact nodup_range
  · intro place child stored
    rw [children,getElem?_map] at stored
    obtain ⟨write,there,_⟩ := Option.map_eq_some_iff.mp stored
    rw [childWrites_places fresh,mem_range]
    rw [childWrites_at fresh] at there
    obtain ⟨endpoint,inside,_⟩ := Option.map_eq_some_iff.mp there
    exact .inl (List.getElem?_eq_some_iff.mp inside).1
  · intro none
    have names := childWrites_names op named
    rw [none] at names
    exact some (map_eq_nil_iff.mp names.symm)
  · rw [childWrites_names]
    exact apart

theorem spread_waits (spread : Spread targeted [write]) (children : targeted.childOps = [pendingChild write]) :
    Waits targeted write := by
  obtain ⟨index,child,found,_⟩ := spread.awaited write (.head _)
  refine ⟨spread.pending,children,Prod.ext index ?_⟩
  rw [children] at found
  have inside := (List.getElem?_eq_some_iff.mp found).1
  exact Nat.lt_one_iff.mp inside

theorem sameKey_names (same : sameKey first second = true) : first.shardName = second.shardName := by
  rcases sameKey_iff.mp same with rfl | ⟨names,_⟩
  · rfl
  · exact names

theorem insertGroup_perm : (insertGroup group groups).Perm (group :: groups) := by
  induction groups with
  | nil => exact .refl _
  | cons first rest ih =>
    unfold insertGroup
    split
    · exact .refl _
    · exact (ih.cons first).trans (.swap group first rest)

theorem addWrites_apart (size : Nat) (before : List TargetedWrite) (groups : List Grouped)
    (grouped : (groups.map (·.batch)).Perm (before.map alone))
    (apart : ((before++writes).map (·.endpoint.shardName)).Nodup) :
    ((writes.foldl (addWrite size) groups).map (·.batch)).Perm ((before++writes).map alone) := by
  induction writes generalizing before groups with
  | nil => simpa using grouped
  | cons write writes ih =>
    have new : findGroup groups write.endpoint = none := by
      rw [findGroup,find?_eq_none]
      intro group mem same
      have inside := grouped.mem_iff.mp (mem_map_of_mem mem)
      obtain ⟨earlier,earlierIn,equal⟩ := mem_map.mp inside
      have names := sameKey_names same
      rw [← equal] at names
      rw [map_append,nodup_append] at apart
      exact apart.2.2 _ (mem_map_of_mem earlierIn) _ (mem_map_of_mem (.head _)) names
    have next : ((addWrite size groups write).map (·.batch)).Perm ((before++[write]).map alone) := by
      unfold addWrite
      rw [new]
      refine (insertGroup_perm.map _).trans ?_
      rw [map_append]
      exact (grouped.cons _).trans (perm_append_singleton _ _).symm
    have rest := ih (before++[write]) _ next (by rwa [append_assoc])
    rwa [append_assoc] at rest

theorem noteWrites_cancelling (index : Nat) (ops : List (WriteOp Doc)) :
    noteWrites true writes index [] (some error) ops = writes.foldl (fun ops write =>
      ops.modify write.writeOpRef.1 fun op => op.cancelWrites (some error)) ops := by
  induction writes generalizing index ops with
  | nil => rfl
  | cons write writes ih => simp [noteWrites,ih]

theorem targetLoop_skips (past : ∀ op ∈ done, op.state ≠ .ready) :
    targetLoop objsize targeter request record (done++ops) groups =
      (done++(targetLoop objsize targeter request record ops groups).1,
        (targetLoop objsize targeter request record ops groups).2) := by
  induction done with
  | nil => rfl
  | cons op done ih =>
    obtain ⟨own,others⟩ := forall_mem_cons.mp past
    rw [cons_append,targetLoop]
    simp [own,ih others]

theorem findGroup_one (known : isNewBatchRequired writes [group] = false) :
    ∀ write ∈ writes, sameKey group.batch.endpoint write.endpoint = true := by
  intro write mem
  have found := any_eq_false.mp known write mem
  by_contra other
  simp [findGroup,other] at found

theorem known_one (known : isNewBatchRequired writes [group] = false) (some : writes ≠ [])
    (apart : (writes.map (·.endpoint.shardName)).Nodup) :
    ∃ write, writes = [write] ∧ sameKey group.batch.endpoint write.endpoint = true := by
  have same := findGroup_one known
  match writes,some with
  | [write],_ => exact ⟨write,rfl,same write (.head _)⟩
  | first :: second :: others,_ =>
    have names := (sameKey_names (same first (by simp))).symm.trans (sameKey_names (same second (by simp)))
    simp [names] at apart

theorem addWrite_one (same : sameKey group.batch.endpoint write.endpoint = true) :
    addWrite size [group] write = [group.add write size] := by
  simp [addWrite,findGroup,addToGroup,same]

theorem targetLoop_joins (objsize : Doc → Nat) (record : Bool) (ordered : request.ordered = true)
    (lawful : Lawful targeter) (fresh : AllFresh ops) (group : Grouped) :
    ∃ waiting rest writes joined status,
      targetLoop objsize targeter request record ops [group] = (waiting++rest,[joined],status) ∧
        List.Forall₂ Waits waiting writes ∧ AllFresh rest ∧
        joined.batch = ⟨group.batch.endpoint,group.batch.writes++writes⟩ := by
  induction ops generalizing group with
  | nil => exact ⟨[],[],[],group,none,rfl,.nil,nofun,by simp⟩
  | cons op rest ih =>
    obtain ⟨own,others⟩ := forall_mem_cons.mp fresh
    have stops : ∀ (kept : WriteOp Doc) (status : Option Status), Fresh kept →
        ∃ waiting behind writes joined after, (kept :: rest,[group],status) = (waiting++behind,[joined],after) ∧
          List.Forall₂ Waits waiting writes ∧ AllFresh behind ∧
          joined.batch = ⟨group.batch.endpoint,group.batch.writes++writes⟩ :=
      fun kept status keeps => ⟨[],kept :: rest,[],group,status,rfl,.nil,forall_mem_cons.mpr ⟨keeps,others⟩,by simp⟩
    unfold targetLoop
    rw [if_neg (not_not.mpr own.1)]
    cases found : op.targetWrites targeter request with
    | error status =>
      dsimp only
      split
      · exact stops op _ own
      · rw [if_neg (by simp [ordered])]
        exact stops _ _ (cancelWrites_fresh op _).1
    | ok result =>
      obtain ⟨targeted,writes⟩ := result
      obtain ⟨_,children,spread,some,apart⟩ := targetWrites_spread own lawful found
      dsimp only
      split
      · exact stops _ _ (cancelWrites_fresh targeted none).1
      rename_i known
      split
      · exact stops _ _ (cancelWrites_fresh targeted none).1
      obtain ⟨write,rfl,same⟩ := known_one (by simpa [ordered] using known) some apart
      rw [foldl_cons,foldl_nil,addWrite_one same,if_neg (by simp)]
      obtain ⟨waiting,behind,writes,joined,status,equal,waits,left,batch⟩ :=
        ih others (group.add write (getWriteSizeBytes objsize request op.item))
      rw [equal]
      refine ⟨targeted :: waiting,behind,write :: writes,joined,status,rfl,
        .cons (spread_waits spread children) waits,left,?_⟩
      rw [batch]
      simp [Grouped.add]

theorem targetWrites_index (found : op.targetWrites targeter request = .ok (targeted,writes)) :
    targeted.itemIndex = op.itemIndex := by
  unfold targetWrites at found
  split at found
  · cases found
  · cases found
    rfl

theorem targetLoop_indices (objsize : Doc → Nat) (targeter : NSTargeter Doc)
    (request : BatchedCommandRequest Doc) (record : Bool) (ops : List (WriteOp Doc)) (groups : List Grouped) :
    (targetLoop objsize targeter request record ops groups).1.map (·.itemIndex) = ops.map (·.itemIndex) := by
  induction ops generalizing groups with
  | nil => rfl
  | cons op rest ih =>
    unfold targetLoop
    split
    · simp [ih]
    cases found : op.targetWrites targeter request with
    | error status =>
      dsimp only
      split
      · rfl
      split
      · split
        · rfl
        · simp [ih,setOpError]
      · rfl
    | ok result =>
      have own := targetWrites_index found
      dsimp only
      split
      · simp [own,cancelWrites]
      split
      · simp [own,cancelWrites]
      · split
        · simp [own]
        · simp [ih,own]

theorem cancelBatches_indices (ops : List (WriteOp Doc)) :
    (cancelBatches why ops groups).map (·.itemIndex) = ops.map (·.itemIndex) := by
  rw [cancelBatches,← noteWrites_cancelling 0]
  exact noteWrites_indices ..

-- What an ordered batch looks like when the targeting of a round is over.
def Targeted (ops : List (WriteOp Doc)) (groups : List Grouped) : Option Status → Prop
  | none => Stage ops ((groups.map (·.batch)).filter fun batch => !batch.writes.isEmpty)
  | some status => Stage (cancelBatches (buildTargetError status) ops groups) []

theorem joined_targeted (completed : Completed done) (waits : List.Forall₂ Waits waiting joined.batch.writes)
    (some : waiting ≠ []) (fresh : AllFresh behind) (numbered : Numbered (done++(waiting++behind))) :
    Targeted (done++(waiting++behind)) [joined] status := by
  cases status with
  | none =>
    have full : joined.batch.writes ≠ [] := by
      intro none
      rw [none] at waits
      cases waits
      exact some rfl
    have kept : ([joined].map (·.batch)).filter (fun batch => !batch.writes.isEmpty) = [joined.batch] := by
      simp [full]
    rw [Targeted,kept]
    exact .joined completed waits fresh
  | some status =>
    obtain ⟨cancelled,cancels,equal⟩ := noteWrites_cancels 0 (buildTargetError status) waits numbered
    rw [noteWrites_cancelling] at equal
    have same : cancelBatches (buildTargetError status) (done++(waiting++behind)) [joined] =
        done++(cancelled++behind) := by simpa [cancelBatches] using equal
    rw [Targeted,same]
    exact .settled completed (forall_mem_append.mpr ⟨cancels,fresh⟩)

theorem spread_targeted (completed : Completed done) (spread : Spread op writes) (some : writes ≠ [])
    (fresh : AllFresh behind) (grouped : (groups.map (·.batch)).Perm (writes.map alone)) :
    Targeted (done++op :: behind) groups none := by
  have kept : (groups.map (·.batch)).filter (fun batch => !batch.writes.isEmpty) = groups.map (·.batch) := by
    rw [filter_eq_self]
    intro batch mem
    obtain ⟨write,_,rfl⟩ := mem_map.mp (grouped.mem_iff.mp mem)
    rfl
  rw [Targeted,kept]
  exact .spread completed spread some fresh grouped

theorem targetLoop_targeted (objsize : Doc → Nat) (record : Bool) (ordered : request.ordered = true)
    (lawful : Lawful targeter) (completed : Completed done) (fresh : AllFresh ops)
    (numbered : Numbered (done++ops)) :
    Targeted (done++(targetLoop objsize targeter request record ops []).1)
      (targetLoop objsize targeter request record ops []).2.1
      (targetLoop objsize targeter request record ops []).2.2 := by
  cases ops with
  | nil => exact .settled completed fresh
  | cons op rest =>
    obtain ⟨own,others⟩ := forall_mem_cons.mp fresh
    rw [targetLoop]
    rw [if_neg (not_not.mpr own.1)]
    cases found : op.targetWrites targeter request with
    | error status =>
      dsimp only
      split
      · exact .settled completed fresh
      · rw [if_pos (.inr rfl)]
        exact .failed completed ⟨rfl,_,rfl,rfl⟩ others
    | ok result =>
      obtain ⟨targeted,writes⟩ := result
      obtain ⟨index,children,spread,some,apart⟩ := targetWrites_spread own lawful found
      have grouped := addWrites_apart (getWriteSizeBytes objsize request op.item) [] [] (.refl _) apart
      have lengths := grouped.length_eq
      rw [length_map,nil_append,length_map] at lengths
      dsimp only
      rw [if_neg (by simp),if_neg (by simp [wouldMakeBatchesTooBig,findGroup])]
      split
      · exact spread_targeted completed spread some others grouped
      rename_i few
      rw [lengths] at few
      cases writes with
      | nil => exact absurd rfl some
      | cons write more =>
        have alone : more = [] := by
          cases more with
          | nil => rfl
          | cons second more => simp [ordered] at few
        subst alone
        obtain ⟨group,single,batch⟩ := map_eq_singleton_iff.mp (perm_singleton.mp grouped)
        rw [single]
        obtain ⟨waiting,behind,writes,joined,status,equal,waits,left,whole⟩ :=
          targetLoop_joins objsize record ordered lawful others group
        have indices := targetLoop_indices objsize targeter request record rest [group]
        rw [equal] at indices ⊢
        have all : List.Forall₂ Waits (targeted :: waiting) joined.batch.writes := by
          rw [whole,batch]
          exact .cons (spread_waits spread children) waits
        refine joined_targeted completed all (by simp) left ?_
        refine numbered_same numbered ?_
        simpa [index] using indices

theorem targetBatch_stage (objsize : Doc → Nat) (record : Bool)
    (ordered : batchOp.request.ordered = true) (lawful : Lawful targeter) (stage : Stage batchOp.ops [])
    (going : isFinished batchOp = false) (numbered : Numbered batchOp.ops) :
    match targetBatch objsize targeter record batchOp with
    | (next,.error _) => Stage next.ops []
    | (next,.ok batches) => Stage next.ops batches := by
  rw [isFinished,ordered] at going
  generalize listed : batchOp.ops = ops at stage going numbered
  cases stage with
  | failed completed erred fresh =>
    rw [failed_finished completed erred] at going
    cases going
  | spread _ _ some _ perm => exact absurd (map_eq_nil_iff.mp (nil_perm.mp perm)) some
  | @settled done fresh completed free =>
    have past : ∀ op ∈ done, op.state ≠ .ready := fun op mem ready => by
      rw [completed op mem] at ready
      cases ready
    have targeted := targetLoop_targeted objsize record ordered lawful completed free numbered
    unfold targetBatch
    rw [listed,targetLoop_skips past]
    generalize targetLoop objsize targeter batchOp.request record fresh [] = result at targeted
    obtain ⟨ops,groups,status⟩ := result
    cases status with
    | none | some status => exact targeted

theorem targetBatch_kept (targeter : NSTargeter Doc) :
    (targetBatch objsize targeter record batchOp).1.request = batchOp.request ∧
      (targetBatch objsize targeter record batchOp).1.ops.map (·.itemIndex) = batchOp.ops.map (·.itemIndex) := by
  have indices := targetLoop_indices objsize targeter batchOp.request record batchOp.ops []
  unfold targetBatch
  split
  · rename_i ops groups status looped
    rw [looped] at indices
    exact ⟨rfl,(cancelBatches_indices ops).trans indices⟩
  · rename_i looped
    rw [looped] at indices
    exact ⟨rfl,indices⟩

end

end Mongo.OrderedBatch
