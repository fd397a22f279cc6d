import SipxExternals.MongoBatchExec
import SipxExternals.MongoOrderedTarget

namespace Mongo.OrderedBatch
open BatchWrite Foundations.Runs List
open BatchWrite.WriteOp hiding error state item

structure Sound (batchOp : BatchWriteOp Doc) (batches : List TargetedWriteBatch) : Prop where
  ordered : batchOp.request.ordered = true
  numbered : Numbered batchOp.ops
  stage : Stage batchOp.ops batches

-- Everything is completed, or everything before the one error is.
inductive Over : List (WriteOp Doc) → Prop where
  | all : Completed ops → Over ops
  | failed : Completed done → Erred op → AllFresh behind → Over (done++op :: behind)

section
variable {Doc : Type} {batchOp : BatchWriteOp Doc} {ops done behind : List (WriteOp Doc)}

theorem sound_perm (sound : Sound batchOp batches) (perm : batches.Perm others) : Sound batchOp others :=
  ⟨sound.ordered,sound.numbered,stage_perm sound.stage perm⟩

theorem sound_started (ordered : request.ordered = true) : Sound (initClientRequest request) [] := by
  refine ⟨ordered,?_,?_⟩
  · apply ext_getElem?
    intro place
    by_cases inside : place < request.items.length <;>
      simp [initClientRequest,inside]
  have free : AllFresh (initClientRequest request).ops := by
    intro op mem
    obtain ⟨place,inside,rfl⟩ := mem_mapIdx.mp mem
    exact ⟨rfl,rfl⟩
  rw [← nil_append (initClientRequest request).ops]
  refine .settled ?_ free
  intro op mem
  cases mem

theorem sound_noted (response : BatchedCommandResponse Doc) (sound : Sound batchOp (batch :: left))
    (few : response.errDetails.length ≤ 1) : Sound (noteOkResponse batch response batchOp) left where
  ordered := sound.ordered
  numbered := numbered_same sound.numbered (noteWrites_indices ..)
  stage := by
    have sorted : (sortErrors response.errDetails).length ≤ 1 := by
      rwa [sortErrors,length_mergeSort]
    have stage := stage_noted sound.stage sorted sound.numbered
    rwa [← sound.ordered] at stage

theorem sound_errored (sound : Sound batchOp (batch :: left)) : Sound (noteBatchError batch error batchOp) left :=
  sound_noted _ sound (by simp [toWriteErrorResponse,sound.ordered])

theorem sound_answered (sound : Sound batchOp (batch :: left))
    (few : response.ok = true → response.errDetails.length ≤ 1) :
    Sound (noteBatchResponse batch response batchOp) left := by
  unfold noteBatchResponse
  split
  · exact sound_errored sound
  · rename_i accepted
    exact sound_noted response sound (few (by simpa using accepted))

theorem sound_targeted (objsize : Doc → Nat) (record : Bool) (lawful : Lawful targeter)
    (sound : Sound batchOp []) (going : isFinished batchOp = false) :
    match targetBatch objsize targeter record batchOp with
    | (next,.error _) => Sound next []
    | (next,.ok batches) => Sound next batches := by
  have stage := targetBatch_stage objsize record sound.ordered lawful sound.stage going sound.numbered
  obtain ⟨request,indices⟩ := targetBatch_kept targeter
  generalize targetBatch objsize targeter record batchOp = result at *
  obtain ⟨next,answer⟩ := result
  have ordered : next.request.ordered = true := by rw [show next.request = _ from request,sound.ordered]
  cases answer with
  | error status | ok batches => exact ⟨ordered,numbered_same sound.numbered indices,stage⟩

theorem abortOps_behind (completed : Completed done) :
    abortOps error true (done++behind) = done++abortOps error true behind := by
  induction done with
  | nil => rfl
  | cons op done ih =>
    obtain ⟨own,others⟩ := forall_mem_cons.mp completed
    simp [abortOps,unfinished,own,ih others]

theorem abortOps_indices (ops : List (WriteOp Doc)) :
    (abortOps error ordered ops).map (·.itemIndex) = ops.map (·.itemIndex) := by
  induction ops with
  | nil => rfl
  | cons op rest ih =>
    unfold abortOps
    split
    · split
      · rfl
      · simp [ih,setOpError]
    · simp [ih]

theorem over_finished (stage : Stage ops []) (finished : finishedOps true ops = true) : Over ops := by
  cases stage with
  | failed completed erred fresh => exact .failed completed erred fresh
  | spread _ _ some _ perm => exact absurd (map_eq_nil_iff.mp (nil_perm.mp perm)) some
  | @settled done fresh completed free =>
    cases fresh with
    | nil => exact .all (by simpa using completed)
    | cons op rest =>
      rw [fresh_unfinished completed (free op mem_cons_self)] at finished
      cases finished

theorem over_aborted (error : WriteErrorDetail) (stage : Stage ops [])
    (going : finishedOps true ops = false) : Over (abortOps error true ops) := by
  cases stage with
  | failed completed erred fresh =>
    rw [failed_finished completed erred] at going
    cases going
  | spread _ _ some _ perm => exact absurd (map_eq_nil_iff.mp (nil_perm.mp perm)) some
  | @settled done fresh completed free =>
    cases fresh with
    | nil =>
      rw [completed_finished completed] at going
      cases going
    | cons op rest =>
      obtain ⟨own,others⟩ := forall_mem_cons.mp free
      rw [abortOps_behind completed]
      simp only [abortOps,unfinished,own.1]
      exact .failed completed ⟨rfl,_,rfl,rfl⟩ others

theorem sound_finished (sound : Sound batchOp []) (finished : isFinished batchOp = true) :
    Numbered batchOp.ops ∧ Over batchOp.ops := by
  rw [isFinished,sound.ordered] at finished
  exact ⟨sound.numbered,over_finished sound.stage finished⟩

theorem sound_aborted (sound : Sound batchOp []) (going : isFinished batchOp = false) :
    Numbered (abortBatch error batchOp).ops ∧ Over (abortBatch error batchOp).ops := by
  rw [isFinished,sound.ordered] at going
  have aborted := over_aborted error sound.stage going
  rw [← sound.ordered] at aborted
  exact ⟨numbered_same sound.numbered (abortOps_indices ..),aborted⟩

theorem waits_pending (waits : List.Forall₂ Waits ops writes) : ∀ op ∈ ops, op.state = .pending := by
  induction waits with
  | nil => nofun
  | cons own _ ih => exact forall_mem_cons.mpr ⟨own.1,ih⟩

theorem waits_at {place : Nat} (waits : List.Forall₂ Waits ops writes) (found : writes[place]? = some write) :
    ∃ op, ops[place]? = some op ∧ Waits op write := by
  induction waits generalizing place with
  | nil => cases found
  | cons own _ ih =>
    cases place with
    | zero =>
      cases found
      exact ⟨_,rfl,own⟩
    | succ place => exact ih found

theorem stage_errorless (stage : Stage ops (batch :: left)) : ∀ op ∈ ops, op.state ≠ .error := by
  have completes : ∀ op : WriteOp Doc, op.state = .completed → op.state ≠ .error := fun op own => by simp [own]
  have readies : ∀ op : WriteOp Doc, Fresh op → op.state ≠ .error := fun op own => by simp [own.1]
  intro op mem
  cases stage with
  | joined completed waits fresh =>
    rcases mem_append.mp mem with own | mem
    · exact completes op (completed op own)
    · rcases mem_append.mp mem with own | own
      · simp [waits_pending waits op own]
      · exact readies op (fresh op own)
  | spread completed spread _ fresh _ =>
    rcases mem_append.mp mem with own | mem
    · exact completes op (completed op own)
    · rcases mem_cons.mp mem with rfl | own
      · simp [spread.pending]
      · exact readies op (fresh op own)

def Precedes (ops : List (WriteOp Doc)) (batch : TargetedWriteBatch) : Prop :=
  ∀ (place : Nat) (write : TargetedWrite), batch.writes[place]? = some write → ∀ index < write.writeOpRef.1,
      (∃ op, ops[index]? = some op ∧ op.state = .completed) ∨
        ∃ earlier < place, ∃ other, batch.writes[earlier]? = some other ∧ other.writeOpRef.1 = index

theorem completed_before (completed : Completed done) (inside : index < done.length) :
    ∃ op, (done++behind)[index]? = some op ∧ op.state = .completed :=
  ⟨done[index],by rw [getElem?_append_left inside,getElem?_eq_getElem inside],completed _ (getElem_mem inside)⟩

theorem stage_precedes (stage : Stage ops (batch :: left)) (numbered : Numbered ops) : Precedes ops batch := by
  intro place write found index earlier
  cases stage with
  | @joined done waiting _ fresh completed waits free =>
    have here : ∀ (spot : Nat) (other : TargetedWrite), batch.writes[spot]? = some other →
        other.writeOpRef.1 = done.length+spot := by
      intro spot other stored
      obtain ⟨op,listed,own⟩ := waits_at waits stored
      rw [own.2.2]
      have inside := (List.getElem?_eq_some_iff.mp listed).1
      refine numbered_at numbered ?_
      rw [List.getElem?_append_right (Nat.le_add_right _ _),Nat.add_sub_cancel_left,getElem?_append_left inside,listed]
    have length := (List.getElem?_eq_some_iff.mp found).1
    rw [here place write found] at earlier
    by_cases first : index < done.length
    · exact .inl (completed_before completed first)
    have stored : batch.writes[index-done.length]? = some batch.writes[index-done.length] :=
      getElem?_eq_getElem (by omega)
    refine .inr ⟨index-done.length,by omega,_,stored,?_⟩
    rw [here _ _ stored]
    omega
  | @spread done op fresh _ writes completed spread _ _ perm =>
    obtain ⟨own,mem,rfl⟩ := mem_map.mp (perm.mem_iff.mp (.head _))
    have same : write = own := mem_singleton.mp (mem_of_getElem? found)
    rw [same,(spread.awaited own mem).1,numbered_middle numbered] at earlier
    exact .inl (completed_before completed earlier)

theorem stage_several (stage : Stage ops (batch :: left)) (other : otherBatch ∈ left) :
    ∃ first second, batch.writes = [first] ∧ otherBatch.writes = [second] ∧
      first.writeOpRef.1 = second.writeOpRef.1 := by
  cases stage with
  | joined => cases other
  | @spread done op fresh _ writes completed spread _ _ perm =>
    have inside : ∀ each ∈ batch :: left, ∃ write, each.writes = [write] ∧ write.writeOpRef.1 = op.itemIndex := by
      intro each mem
      obtain ⟨write,listed,rfl⟩ := mem_map.mp (perm.mem_iff.mp mem)
      exact ⟨write,rfl,(spread.awaited write listed).1⟩
    obtain ⟨first,firstOnly,firstIndex⟩ := inside batch (.head _)
    obtain ⟨second,secondOnly,secondIndex⟩ := inside otherBatch (.tail _ other)
    exact ⟨first,second,firstOnly,secondOnly,firstIndex.trans secondIndex.symm⟩

theorem stage_failed (stage : Stage ops batches) (mem : op ∈ ops) (failed : op.state = .error) :
    batches = [] ∧ finishedOps true ops = true := by
  cases batches with
  | cons batch left => exact absurd failed (stage_errorless stage op mem)
  | nil =>
    refine ⟨rfl,?_⟩
    cases stage with
    | failed completed erred _ => exact failed_finished completed erred
    | spread _ _ some _ perm => exact absurd (map_eq_nil_iff.mp (nil_perm.mp perm)) some
    | settled completed fresh =>
      rcases mem_append.mp mem with own | own
      · rw [completed op own] at failed
        cases failed
      · rw [(fresh op own).1] at failed
        cases failed

def OneError (ops : List (WriteOp Doc)) (response : ClientResponse Doc) : Prop :=
  response.errDetails = [] ∨ ∃ (error : WriteErrorDetail) (index : Nat),
    response.errDetails = [error] ∧ error.index = index ∧ ∀ (place : Nat) (op : WriteOp Doc),
      ops[place]? = some op → (op.state = .completed ↔ place < index)

theorem opErrors_completed (completed : Completed done) : opErrors (done++behind) = opErrors behind := by
  have none : done.filter (fun op => op.state == .error) = [] := by
    rw [filter_eq_nil_iff]
    intro op mem
    simp [completed op mem]
  simp [opErrors,none]

theorem opErrors_fresh (fresh : AllFresh ops) : opErrors ops = [] := by
  have none : ops.filter (fun op => op.state == .error) = [] := by
    rw [filter_eq_nil_iff]
    intro op mem
    simp [(fresh op mem).1]
  simp [opErrors,none]

theorem over_one (finished : Over batchOp.ops) (numbered : Numbered batchOp.ops) :
    OneError batchOp.ops (buildClientResponse batchOp) := by
  by_cases verbose : batchOp.request.isVerboseWC = false
  · exact .inl (by simp [buildClientResponse,verbose])
  have details : (buildClientResponse batchOp).errDetails = opErrors batchOp.ops := by
    simp [buildClientResponse,verbose]
  rw [OneError,details]
  generalize batchOp.ops = ops at finished numbered
  cases finished with
  | all completed =>
    have none : opErrors (ops++[]) = [] := opErrors_completed completed
    rw [append_nil] at none
    exact .inl none
  | @failed done op behind completed erred fresh =>
    obtain ⟨state,error,stored,index⟩ := erred
    have here := numbered_middle numbered
    refine .inr ⟨error,done.length,?_,by rw [index,here],?_⟩
    · rw [opErrors_completed completed]
      simpa [opErrors,state,stored] using opErrors_fresh fresh
    intro place other found
    rcases lt_trichotomy place done.length with before | equal | after
    · rw [getElem?_append_left before] at found
      simp [before,completed other (mem_of_getElem? found)]
    · rw [equal] at found
      cases (by simpa using found : op = other)
      simp [state,equal]
    · obtain ⟨rest,rfl⟩ : ∃ rest, place = done.length+(rest+1) := ⟨place-done.length-1,by omega⟩
      rw [getElem?_append_right (by omega),Nat.add_sub_cancel_left,getElem?_cons_succ] at found
      simp [(fresh other (mem_of_getElem? found)).1]

end

section
variable {World Host Doc : Type} [DecidableEq Host] {env : Environment World Host Doc}
  {s t : Exec World Host Doc}

def unsent (s : Exec World Host Doc) : List TargetedWriteBatch := s.childBatches.filterMap id

def sent (s : Exec World Host Doc) : List TargetedWriteBatch := s.pendingBatches.map Prod.snd

-- numToSend counts what was sent, is being sent or is still to be sent.
def Kept (s : Exec World Host Doc) : Prop :=
  match s.phase with
  | .batch => Sound s.batchOp [] ∧ s.pendingBatches = []
  | .pass => Sound s.batchOp (unsent s) ∧ s.pendingBatches = [] ∧ s.numToSend = s.numSent+(unsent s).length
  | .send _ => Sound s.batchOp (unsent s++sent s) ∧ s.numToSend = s.numSent+(unsent s).length+s.pendingBatches.length
  | .recv => Sound s.batchOp (unsent s++sent s) ∧ s.numToSend = s.numSent+(unsent s).length
  | .round => Sound s.batchOp [] ∧ s.pendingBatches = []
  | .done response => response = buildClientResponse s.batchOp ∧ Numbered s.batchOp.ops ∧ Over s.batchOp.ops

theorem unsent_taken (place : Nat) (batches : List (Option TargetedWriteBatch))
    (found : batches[place]? = some (some batch)) :
    (batches.filterMap id).Perm (batch :: (batches.set place none).filterMap id) := by
  induction batches generalizing place with
  | nil => cases found
  | cons first rest ih =>
    cases place with
    | zero =>
      cases found
      simp
    | succ place =>
      have tail := ih place found
      cases first with
      | none => simpa using tail
      | some first => simpa using (tail.cons first).trans (.swap batch first _)

theorem kept_batch (lawful : ∀ world, Lawful (env.targeter world)) (kept : Kept s) (here : s.phase = .batch) :
    Kept (step env s) := by
  simp only [Kept,here] at kept
  obtain ⟨sound,empty⟩ := kept
  simp only [step,here]
  split
  · rename_i finished
    exact ⟨rfl,sound_finished sound finished⟩
  rename_i going
  have targeted := sound_targeted env.objsize s.refreshedTargeter (lawful s.world) sound (by simpa using going)
  unfold target
  generalize targetBatch env.objsize (env.targeter s.world) s.refreshedTargeter s.batchOp = result at targeted
  obtain ⟨next,answer⟩ := result
  cases answer with
  | error status => exact ⟨targeted,empty,rfl⟩
  | ok batches =>
    refine ⟨?_,empty,?_⟩
    · simpa [unsent] using targeted
    · simp [unsent]

theorem kept_pass (kept : Kept s) (here : s.phase = .pass) : Kept (step env s) := by
  simp only [Kept,here] at kept
  obtain ⟨sound,empty,count⟩ := kept
  simp only [step,here]
  split
  · rename_i even
    have none : unsent s = [] := length_eq_zero_iff.mp (by omega)
    rw [none] at sound
    exact ⟨sound,empty⟩
  · exact ⟨by simpa [unsent,sent] using sound,by simpa [unsent] using count⟩

theorem kept_send (kept : Kept s) (here : s.phase = .send place) : Kept (step env s) := by
  simp only [Kept,here] at kept
  obtain ⟨sound,count⟩ := kept
  simp only [step,here]
  split
  · refine ⟨sound,?_⟩
    change s.numToSend = s.numSent+s.pendingBatches.length+(unsent s).length
    omega
  · exact ⟨sound,count⟩
  rename_i batch found
  have taken := unsent_taken place s.childBatches found
  have fewer := taken.length_eq
  rw [length_cons] at fewer
  have before : s.numToSend = s.numSent+(s.childBatches.filterMap id).length+s.pendingBatches.length := count
  unfold sendBatch
  generalize env.chooseWriteHost s.world batch.endpoint.shardName = result
  obtain ⟨world,resolved⟩ := result
  cases resolved with
  | error status =>
    have first := sound_perm sound (taken.append_right _)
    refine ⟨sound_errored first,?_⟩
    change s.numToSend-1 = s.numSent+((s.childBatches.set place none).filterMap id).length+ s.pendingBatches.length
    omega
  | ok shardHost =>
    dsimp only
    split
    · exact ⟨sound,count⟩
    refine ⟨sound_perm sound ?_,?_⟩
    · change (s.childBatches.filterMap id++sent s).Perm
        ((s.childBatches.set place none).filterMap id++(s.pendingBatches++[(shardHost,batch)]).map Prod.snd)
      refine (taken.append_right _).trans ?_
      rw [map_append,← append_assoc]
      exact (perm_append_singleton _ _).symm
    change s.numToSend = s.numSent+((s.childBatches.set place none).filterMap id).length+
      (s.pendingBatches++[(shardHost,batch)]).length
    rw [length_append,length_singleton]
    omega

-- A shard does the writes of a batch in order and stops at its first error.
def StopsAtFirst (env : Environment World Host Doc) : Prop :=
  ∀ world response, (env.recvAny world).2.2 = .ok response → response.ok = true → response.errDetails.length ≤ 1

omit [DecidableEq Host] in
theorem kept_receiving (here : s.phase = .recv) : Kept s ↔
    Sound s.batchOp (unsent s++sent s) ∧ s.numToSend = s.numSent+(unsent s).length := by
  simp [Kept,here]

theorem kept_recv (stops : StopsAtFirst env) (kept : Kept s) (here : s.phase = .recv) : Kept (step env s) := by
  obtain ⟨sound,count⟩ := (kept_receiving here).mp kept
  simp only [step,here]
  split
  · rename_i empty
    refine ⟨?_,empty,count⟩
    rwa [sent,empty,map_nil,append_nil] at sound
  have few := stops s.world
  unfold receive
  generalize env.recvAny s.world = result at few
  obtain ⟨world,choice,answer⟩ := result
  dsimp only
  split
  · exact kept
  rename_i shardHost batch found
  obtain ⟨inside,equal⟩ := List.getElem?_eq_some_iff.mp found
  have taken := (List.getElem_cons_eraseIdx_perm inside).symm.map Prod.snd
  rw [equal,List.map_cons] at taken
  have first := sound_perm sound ((taken.append_left (unsent s)).trans perm_middle)
  cases answer with
  | error status =>
    refine (kept_receiving ?_).mpr ⟨sound_errored first,count⟩
    exact here
  | ok response =>
    refine (kept_receiving ?_).mpr ⟨sound_answered first (few response rfl),count⟩
    exact here

theorem kept_round (kept : Kept s) (here : s.phase = .round) : Kept (step env s) := by
  simp only [Kept,here] at kept
  obtain ⟨sound,empty⟩ := kept
  simp only [step,here]
  unfold endRound
  dsimp only
  split
  · rename_i finished
    exact ⟨rfl,sound_finished sound finished⟩
  rename_i going
  split
  · exact ⟨rfl,sound_aborted sound (by simpa using going)⟩
  · exact ⟨sound,empty⟩

section
variable (lawful : ∀ world, Lawful (env.targeter world)) (stops : StopsAtFirst env) (kept : Kept s)
include lawful stops kept

theorem kept_step : Kept (step env s) := by
  cases here : s.phase with
  | batch => exact kept_batch lawful kept here
  | pass => exact kept_pass kept here
  | send place => exact kept_send kept here
  | recv => exact kept_recv stops kept here
  | round => exact kept_round kept here
  | done response =>
    have same : step env s = s := by simp [step,here]
    rwa [same]

theorem kept_reached (reached : Reaches env s t) : Kept t := by
  induction reached with
  | refl => exact kept
  | tail _ turned ih =>
    cases turned.2
    exact kept_step lawful stops ih

end

omit [DecidableEq Host] in
theorem kept_started (ordered : request.ordered = true) : Kept (start request world : Exec World Host Doc) :=
  ⟨sound_started ordered,rfl⟩

theorem sends_sound (kept : Kept s) (sends : Sends env s batch) :
    Sound s.batchOp (batch :: (unsent (step env s)++sent s)) ∧ (step env s).rounds = s.rounds ∧
      (step env s).phase ≠ .batch := by
  obtain ⟨place,world,shardHost,here,found,chosen,free⟩ := sends
  have new : (s.pendingBatches.any fun pending => pending.1 = shardHost) = false := by
    rw [any_eq_false]
    intro pending mem
    simpa using free pending mem
  simp only [Kept,here] at kept
  have moved : step env s = { s with
      world := env.addCommand world shardHost (buildBatchRequest s.batchOp batch)
      childBatches := s.childBatches.set place none
      pendingBatches := s.pendingBatches++[(shardHost,batch)]
      phase := .send (place+1) } := by
    simp [step,here,found,sendBatch,chosen,new]
  rw [moved]
  refine ⟨sound_perm kept.1 ?_,rfl,by simp⟩
  exact (unsent_taken place s.childBatches found).append_right (sent s)

-- A turn begins a round, ends it, or goes on in it with no more to send than before.
theorem step_within (env : Environment World Host Doc) (s : Exec World Host Doc) :
    (s.phase = .batch ∧ (step env s).rounds = s.rounds) ∨ (step env s).rounds = s.rounds+1 ∨
      ((step env s).rounds = s.rounds ∧ (step env s).phase ≠ .batch ∧ unsent (step env s) ⊆ unsent s) := by
  cases here : s.phase with simp only [step,here]
  | batch =>
    refine .inl ⟨trivial,?_⟩
    split
    · rfl
    · unfold target
      dsimp only
      split <;> rfl
  | pass =>
    refine .inr (.inr ?_)
    split <;>
      exact ⟨rfl,by simp,fun _ mem => mem⟩
  | send place =>
    refine .inr (.inr ?_)
    split
    · exact ⟨rfl,by simp,fun _ mem => mem⟩
    · exact ⟨rfl,by simp,fun _ mem => mem⟩
    rename_i batch found
    have fewer : (s.childBatches.set place none).filterMap id ⊆ unsent s := fun other mem =>
      (unsent_taken place s.childBatches found).mem_iff.mpr (.tail _ mem)
    unfold sendBatch
    dsimp only
    split
    · exact ⟨rfl,by simp,fewer⟩
    · split
      · exact ⟨rfl,by simp,fun _ mem => mem⟩
      · exact ⟨rfl,by simp,fewer⟩
  | recv =>
    refine .inr (.inr ?_)
    split
    · exact ⟨rfl,by simp,fun _ mem => mem⟩
    unfold receive
    dsimp only
    split
    · exact ⟨rfl,by simp [here],fun _ mem => mem⟩
    · split <;>
        exact ⟨rfl,by simp [here],fun _ mem => mem⟩
  | round =>
    refine .inr (.inl ?_)
    unfold endRound
    dsimp only
    split
    · rfl
    · split <;> rfl
  | done response => exact .inr (.inr ⟨trivial,by simp,fun _ mem => mem⟩)

theorem rounds_reached (reached : Reaches env s t) : s.rounds ≤ t.rounds := by
  induction reached with
  | refl => exact le_rfl
  | @tail t _ _ turned ih =>
    cases turned.2
    rcases step_within env t with ⟨_,same⟩ | next | ⟨same,_⟩
    all_goals omega

theorem unsent_reached (reached : Reaches env s t) (inside : s.phase ≠ .batch) (same : t.rounds = s.rounds) :
    t.phase ≠ .batch ∧ unsent t ⊆ unsent s := by
  induction reached with
  | refl => exact ⟨inside,fun _ mem => mem⟩
  | @tail t _ prior turned ih =>
    cases turned.2
    have low := rounds_reached prior
    rcases step_within env t with ⟨begins,equal⟩ | next | ⟨equal,going,fewer⟩
    · exact absurd begins (ih (by omega)).1
    · omega
    · exact ⟨going,fun _ mem => (ih (by omega)).2 (fewer mem)⟩

theorem step_failed (kept : Kept s) (mem : op ∈ s.batchOp.ops) (failed : op.state = .error) :
    (step env s).batchOp.ops = s.batchOp.ops := by
  have finishes : ∀ batches, Sound s.batchOp batches → batches = [] ∧ isFinished s.batchOp = true := by
    intro batches sound
    rw [isFinished,sound.ordered]
    exact stage_failed sound.stage mem failed
  cases here : s.phase with
  | batch =>
    simp only [Kept,here] at kept
    simp [step,here,(finishes _ kept.1).2,Exec.finish]
  | pass =>
    simp only [step,here]
    split <;> rfl
  | send place =>
    simp only [Kept,here] at kept
    have none := (append_eq_nil_iff.mp (finishes _ kept.1).1).1
    simp only [step,here]
    split
    · rfl
    · rfl
    rename_i batch found
    have taken := unsent_taken place s.childBatches found
    rw [show s.childBatches.filterMap id = [] from none] at taken
    exact absurd (nil_perm.mp taken) (by simp)
  | recv =>
    have none := (append_eq_nil_iff.mp (finishes _ ((kept_receiving here).mp kept).1).1).2
    simp [step,here,map_eq_nil_iff.mp none]
  | round =>
    simp only [Kept,here] at kept
    simp [step,here,endRound,(finishes _ kept.1).2,Exec.finish]
  | done response => simp [step,here]

theorem failed_reached (lawful : ∀ world, Lawful (env.targeter world)) (stops : StopsAtFirst env) (kept : Kept s)
    (mem : op ∈ s.batchOp.ops) (failed : op.state = .error) (reached : Reaches env s t) :
    op ∈ t.batchOp.ops := by
  induction reached with
  | refl => exact mem
  | @tail t _ prior turned ih =>
    cases turned.2
    rw [step_failed (kept_reached lawful stops kept prior) ih failed]
    exact ih

theorem ordered_executed (env : Environment World Host Doc) (request : BatchedCommandRequest Doc) (world : World)
    (ordered : request.ordered = true) (lawful : ∀ world, Lawful (env.targeter world))
    (stops : StopsAtFirst env) (s : Exec World Host Doc) (reached : Reaches env (start request world) s) :
    (∀ batch, Sends env s batch → ∀ t other, Relation.TransGen (Turn (turn env) isDone) s t →
      t.rounds = s.rounds → Sends env t other → ∃ first second, batch.writes = [first] ∧
        other.writes = [second] ∧ first.writeOpRef.1 = second.writeOpRef.1) ∧
    (∀ batch, Sends env s batch → Precedes s.batchOp.ops batch) ∧
    (∀ op ∈ s.batchOp.ops, op.state = .error → ∀ t, Reaches env s t → ∀ batch, ¬ Sends env t batch) ∧
    (∀ response, s.phase = .done response → OneError s.batchOp.ops response) := by
  have kept := kept_reached lawful stops (kept_started ordered) reached
  refine ⟨?_,?_,?_,?_⟩
  · intro batch sends t other later same next
    obtain ⟨sound,rounds,inside⟩ := sends_sound kept sends
    obtain ⟨middle,turned,rest⟩ := Relation.TransGen.head'_iff.mp later
    cases turned.2
    obtain ⟨_,fewer⟩ := unsent_reached rest inside (by omega)
    obtain ⟨place,_,_,_,found,_⟩ := next
    have unsentIn : other ∈ unsent t := mem_filterMap.mpr ⟨some other,mem_of_getElem? found,rfl⟩
    exact stage_several sound.stage (mem_append_left _ (fewer unsentIn))
  · intro batch sends
    have sound := (sends_sound kept sends).1
    exact stage_precedes sound.stage sound.numbered
  · intro op member failed t later batch sends
    have stays := failed_reached lawful stops kept member failed later
    have sound := (sends_sound (kept_reached lawful stops kept later) sends).1
    exact stage_errorless sound.stage op stays failed
  · intro response ended
    simp only [Kept,ended] at kept
    obtain ⟨rfl,numbered,finished⟩ := kept
    exact over_one finished numbered

theorem reaches_step (going : isDone s = false) : Reaches env s (step env s) := .single ⟨going,rfl⟩

end

def plain (answer : Item Bool → List ShardEndpoint) (allShards : List ShardEndpoint) :
    Environment Unit String Bool where
  objsize _ := 0
  targeter _ := ⟨fun _ => .ok ⟨"a",1,1⟩,fun item => .ok (answer item),fun _ => .ok allShards,.ok allShards,
    .ok allShards⟩
  noteCouldNotTarget world := world
  noteStaleResponse world _ _ := world
  refreshIfNeeded world := (world,false)
  chooseWriteHost world shardName := (world,.ok shardName)
  addCommand world _ _ := world
  sendAll world := world
  recvAny world := (world,0,.ok ⟨true,0,"",1,0,[],[],none⟩)
  hostText shardHost := shardHost
  statusText status := status.reason

def updates : BatchedCommandRequest Bool :=
  ⟨"db.coll",.update,false,true,true,[⟨false,false⟩,⟨true,true⟩]⟩

theorem plain_stops : StopsAtFirst (plain answer allShards) := by
  intro world response received _
  cases received
  exact Nat.zero_le _

def everywhere : List ShardEndpoint := [⟨"a",ignored⟩,⟨"b",ignored⟩]

def together : Environment Unit String Bool := plain (fun _ => [⟨"a",ignored⟩]) everywhere

theorem together_lawful (world : Unit) : Lawful (together.targeter world) := by
  have named : ∀ {shards : List ShardEndpoint}, shards ≠ [] ∧ (shards.map (·.shardName)).Nodup → NamesShards (.ok shards) := by
    rintro shards proper _ ⟨⟩
    exact proper
  exact ⟨fun _ => named (by simp),fun _ => named (by decide),named (by decide),named (by decide)⟩

def bothWrites : TargetedWriteBatch := ⟨⟨"a",ignored⟩,[⟨⟨"a",ignored⟩,0,0⟩,⟨⟨"a",ignored⟩,1,0⟩]⟩

def sending (env : Environment Unit String Bool) : Exec Unit String Bool := step env (step env (start updates ()))

theorem sending_reached (targets : isDone (step env (start updates ())) = false) :
    Reaches env (start updates ()) (sending env) :=
  (reaches_step rfl).trans (reaches_step targets)

theorem ordered_executed_together :
    Sends together (sending together) bothWrites ∧ Precedes (sending together).batchOp.ops bothWrites := by
  have sends : Sends together (sending together) bothWrites :=
    ⟨0,(),"a",by decide +kernel,by decide +kernel,rfl,by decide +kernel⟩
  exact ⟨sends,(ordered_executed together updates () rfl together_lawful plain_stops _
    (sending_reached (by decide +kernel))).2.1 _ sends⟩

-- A targeter that names a shard twice, and one that names none for the first write.
def repeating : Environment Unit String Bool :=
  plain (fun _ => everywhere++[⟨"a",ignored⟩]) (everywhere++[⟨"a",ignored⟩])

def omitting : Environment Unit String Bool :=
  plain (fun item => if item.query then [⟨"a",ignored⟩] else []) everywhere

theorem unlawful_sent : (StopsAtFirst repeating ∧ ∃ s t batch other, Reaches repeating (start updates ()) s ∧
      Relation.TransGen (Turn (turn repeating) isDone) s t ∧ t.rounds = s.rounds ∧
      Sends repeating s batch ∧ Sends repeating t other ∧ batch.writes.length = 2) ∧
    (StopsAtFirst omitting ∧ ∃ s batch, Reaches omitting (start updates ()) s ∧
      Sends omitting s batch ∧ ¬ Precedes s.batchOp.ops batch) := by
  refine ⟨⟨plain_stops,sending repeating,step repeating (sending repeating),
    ⟨⟨"a",ignored⟩,[⟨⟨"a",ignored⟩,0,0⟩,⟨⟨"a",ignored⟩,0,2⟩]⟩,⟨⟨"b",ignored⟩,[⟨⟨"b",ignored⟩,0,1⟩]⟩,
    sending_reached (by decide +kernel),.single ⟨by decide +kernel,rfl⟩,by decide +kernel,?_,?_,rfl⟩,
    plain_stops,sending omitting,⟨⟨"a",ignored⟩,[⟨⟨"a",ignored⟩,1,0⟩]⟩,
    sending_reached (by decide +kernel),?_,?_⟩
  · exact ⟨0,(),"a",by decide +kernel,by decide +kernel,rfl,by decide +kernel⟩
  · exact ⟨1,(),"b",by decide +kernel,by decide +kernel,rfl,by decide +kernel⟩
  · exact ⟨0,(),"a",by decide +kernel,by decide +kernel,rfl,by decide +kernel⟩
  · intro precedes
    have first : ((sending omitting).batchOp.ops[0]?.map (·.state)) = some .pending := by decide +kernel
    rcases precedes 0 _ rfl 0 (by decide) with ⟨op,found,completed⟩ | ⟨_,before,_⟩
    · simp [found,completed] at first
    · cases before

end Mongo.OrderedBatch
