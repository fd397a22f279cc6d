import Mathlib.Data.List.Forall2
import Mathlib.Data.List.Nodup
import SipxExternals.MongoWriteOp

namespace Mongo.OrderedBatch
open BatchWrite List
open BatchWrite.WriteOp hiding error state item

def Fresh (op : WriteOp Doc) : Prop := op.state = .ready ∧ op.childOps = []

def Erred (op : WriteOp Doc) : Prop :=
  op.state = .error ∧ ∃ error, op.error = some error ∧ error.index = op.itemIndex

def Answered (index : Nat) (child : ChildWriteOp) : Prop :=
  child.state = .completed ∨ child.state = .error ∧ ∃ error, child.error = some error ∧ error.index = index

structure Spread (op : WriteOp Doc) (writes : List TargetedWrite) : Prop where
  pending : op.state = .pending
  awaited : ∀ write ∈ writes, write.writeOpRef.1 = op.itemIndex ∧
    ∃ child, op.childOps[write.writeOpRef.2]? = some child ∧ child.state = .pending
  distinct : (writes.map fun write => write.writeOpRef.2).Nodup
  answered : ∀ place child, op.childOps[place]? = some child →
    place ∈ writes.map (fun write => write.writeOpRef.2) ∨ Answered op.itemIndex child

def Waits (op : WriteOp Doc) (write : TargetedWrite) : Prop :=
  op.state = .pending ∧ op.childOps = [pendingChild write] ∧ write.writeOpRef = (op.itemIndex,0)

def Completed (ops : List (WriteOp Doc)) : Prop := ∀ op ∈ ops, op.state = .completed

def AllFresh (ops : List (WriteOp Doc)) : Prop := ∀ op ∈ ops, Fresh op

def alone (write : TargetedWrite) : TargetedWriteBatch := ⟨write.endpoint,[write]⟩

-- How far an ordered batch is, with the batches that have no answer yet: one for a run
-- of operations that each go to one shard, or several for one operation.
inductive Stage : List (WriteOp Doc) → List TargetedWriteBatch → Prop where
  | settled : Completed done → AllFresh fresh → Stage (done++fresh) []
  | failed : Completed done → Erred op → AllFresh fresh → Stage (done++op :: fresh) []
  | joined : Completed done → List.Forall₂ Waits waiting batch.writes → AllFresh fresh →
      Stage (done++(waiting++fresh)) [batch]
  | spread : Completed done → Spread op writes → writes ≠ [] → AllFresh fresh →
      batches.Perm (writes.map alone) → Stage (done++op :: fresh) batches

section
variable {Doc : Type} {op : WriteOp Doc} {ops done before behind waiting fresh : List (WriteOp Doc)}

theorem waits_spread (waits : Waits op write) : Spread op [write] := by
  obtain ⟨pending,children,named⟩ := waits
  refine ⟨pending,?_,by simp,?_⟩
  · intro other mem
    cases mem_singleton.mp mem
    exact ⟨by rw [named],pendingChild write,by simp [named,children],rfl⟩
  intro place child found
  rw [children] at found
  cases place with
  | zero => exact .inl (by simp [named])
  | succ place => cases found

theorem spread_perm (spread : Spread op writes) (perm : writes.Perm others) : Spread op others where
  pending := spread.pending
  awaited write mem := spread.awaited write (perm.mem_iff.mpr mem)
  distinct := (perm.map _).nodup_iff.mp spread.distinct
  answered place child found := by
    rw [← (perm.map _).mem_iff]
    exact spread.answered place child found

theorem answered_final (answered : Answered index child) : isFinal child = true := by
  rcases answered with completed | ⟨failed,_⟩
  · simp [isFinal,completed]
  · simp [isFinal,failed]

theorem childErrors_index (answered : ∀ child ∈ children, Answered index child) :
    ∀ error ∈ childErrors children, error.index = index := by
  intro error mem
  obtain ⟨child,failed,carried⟩ := mem_filterMap.mp mem
  obtain ⟨inside,state⟩ := mem_filter.mp failed
  rcases answered child inside with completed | ⟨_,own,stored,placed⟩
  · simp [completed] at state
  · rw [stored] at carried
    cases carried
    exact placed

theorem combineOpErrors_index (some : errors ≠ []) (all : ∀ error ∈ errors, error.index = index) :
    (combineOpErrors errors).index = index := by
  unfold combineOpErrors
  split
  · exact all _ (.head _)
  · cases errors with
    | nil => exact absurd rfl some
    | cons first rest => simpa using all first (.head _)

def Settles (op settled : WriteOp Doc) : Prop :=
  settled.itemIndex = op.itemIndex ∧ (settled.state = .completed ∨ Fresh settled ∨ Erred settled)

theorem updateOpState_settles (answered : ∀ child ∈ op.childOps, Answered op.itemIndex child) :
    Settles op op.updateOpState := by
  have final : op.childOps.all isFinal = true := by
    rw [all_eq_true]
    exact fun child mem => answered_final (answered child mem)
  by_cases none : childErrors op.childOps = []
  · simp [Settles,updateOpState,final,none]
  by_cases retry : (childErrors op.childOps).all (fun error => isRetryErrCode error.errCode) = true
  · have equal : op.updateOpState =
        { op with state := .ready, history := op.history++op.childOps, childOps := [] } := by
      simp [updateOpState,final,none,retry]
    rw [equal]
    exact ⟨rfl,.inr (.inl ⟨rfl,rfl⟩)⟩
  have equal : op.updateOpState = { op with
        state := .error
        error := some (combineOpErrors (childErrors op.childOps))
        history := op.history++op.childOps
        childOps := [] } := by
    simp only [updateOpState,final,none,retry,ne_eq,not_false_eq_true,and_false,
      Bool.true_eq_false,Bool.false_eq_true,if_true,if_false]
  rw [equal]
  exact ⟨rfl,.inr (.inr ⟨rfl,_,rfl,combineOpErrors_index none (childErrors_index answered)⟩)⟩

theorem updateOpState_waits (inside : child ∈ op.childOps) (waits : child.state = .pending) :
    op.updateOpState = op := by
  have unfinal : op.childOps.all isFinal = false := by
    rw [all_eq_false]
    exact ⟨child,inside,by simp [isFinal,waits]⟩
  simp [updateOpState,unfinal]

def Notes (index : Nat) (note : ChildWriteOp → ChildWriteOp) : Prop := ∀ child, Answered index (note child)

theorem completeChild_notes : Notes index (completeChild write) := fun _ => .inl rfl

theorem failChild_notes : Notes index (failChild write error index) := fun _ => .inr ⟨rfl,_,rfl,rfl⟩

def noted (note : ChildWriteOp → ChildWriteOp) (place : Nat) (op : WriteOp Doc) : WriteOp Doc :=
  { op with childOps := op.childOps.modify place note }

theorem spread_answered (spread : Spread op (write :: left)) (notes : Notes op.itemIndex note) :
    ∀ place child, (noted note write.writeOpRef.2 op).childOps[place]? = some child →
      place ∈ left.map (fun write => write.writeOpRef.2) ∨ Answered op.itemIndex child := by
  intro place child found
  simp only [noted,getElem?_modify] at found
  obtain ⟨old,stored,rfl⟩ := Option.map_eq_some_iff.mp found
  split
  · exact .inr (notes old)
  rename_i other
  rcases spread.answered place old stored with awaited | answered
  · rcases mem_cons.mp awaited with equal | mem
    · exact absurd equal.symm other
    · exact .inl mem
  · exact .inr answered

theorem spread_last (spread : Spread op [write]) (notes : Notes op.itemIndex note) :
    Settles op (noted note write.writeOpRef.2 op).updateOpState := by
  apply updateOpState_settles
  intro child mem
  obtain ⟨place,found⟩ := mem_iff_getElem?.mp mem
  rcases spread_answered spread notes place child found with awaited | answered
  · cases awaited
  · exact answered

theorem spread_next (spread : Spread op (write :: left)) (more : left ≠ []) (notes : Notes op.itemIndex note) :
    Spread (noted note write.writeOpRef.2 op).updateOpState left := by
  obtain ⟨fresh,distinct⟩ := nodup_cons.mp spread.distinct
  have kept : ∀ other ∈ left, ∃ child, (noted note write.writeOpRef.2 op).childOps[other.writeOpRef.2]? = some child ∧
        child.state = .pending := by
    intro other mem
    obtain ⟨_,child,stored,pending⟩ := spread.awaited other (.tail _ mem)
    have apart : write.writeOpRef.2 ≠ other.writeOpRef.2 :=
      fun equal => fresh (mem_map.mpr ⟨other,mem,equal.symm⟩)
    exact ⟨child,by simp [noted,apart,stored],pending⟩
  obtain ⟨other,mem⟩ := exists_mem_of_ne_nil left more
  obtain ⟨child,stored,waits⟩ := kept other mem
  rw [updateOpState_waits (mem_of_getElem? stored) waits]
  refine ⟨spread.pending,?_,distinct,spread_answered spread notes⟩
  intro other mem
  exact ⟨(spread.awaited other (.tail _ mem)).1,kept other mem⟩

theorem waits_completed (waits : Waits op write) : (op.noteWriteComplete write).state = .completed ∧
      (op.noteWriteComplete write).itemIndex = op.itemIndex := by
  obtain ⟨_,children,named⟩ := waits
  simp [noteWriteComplete,updateOpState,children,named,completeChild,pendingChild,isFinal,childErrors]

theorem cancelWrites_fresh (op : WriteOp Doc) (why : Option WriteErrorDetail) :
    Fresh (op.cancelWrites why) ∧ (op.cancelWrites why).itemIndex = op.itemIndex :=
  ⟨⟨rfl,rfl⟩,rfl⟩

def Numbered (ops : List (WriteOp Doc)) : Prop := ops.map (·.itemIndex) = List.range ops.length

theorem numbered_at (numbered : Numbered ops) (found : ops[place]? = some op) : op.itemIndex = place := by
  have both := congrArg (fun indices => indices[place]?) numbered
  simp only [getElem?_map,found,Option.map_some] at both
  obtain ⟨_,equal⟩ := List.getElem?_eq_some_iff.mp both.symm
  simpa using equal.symm

theorem numbered_middle (numbered : Numbered (before++op :: behind)) : op.itemIndex = before.length :=
  numbered_at numbered (by simp)

theorem numbered_same {others : List (WriteOp Doc)} (numbered : Numbered ops)
    (same : others.map (·.itemIndex) = ops.map (·.itemIndex)) :
    Numbered others := by
  have lengths : others.length = ops.length := by simpa using congrArg length same
  rw [Numbered,same,lengths,numbered]

theorem modify_middle (before behind : List α) (first : α) (change : α → α) :
    (before++first :: behind).modify before.length change = before++change first :: behind := by
  induction before with
  | nil => rfl
  | cons head before ih => simpa using ih

theorem modify_indices (same : ∀ op, (change op).itemIndex = op.itemIndex) (place : Nat) (ops : List (WriteOp Doc)) :
    (ops.modify place change).map (·.itemIndex) = ops.map (·.itemIndex) := by
  induction ops generalizing place with
  | nil => cases place <;> rfl
  | cons first rest ih =>
    cases place with
    | zero => simp [same]
    | succ place => simpa using ih place

theorem updateOpState_index (op : WriteOp Doc) : op.updateOpState.itemIndex = op.itemIndex := by
  unfold updateOpState
  dsimp only
  split
  · rfl
  · split
    · rfl
    · split <;> rfl

theorem quiet_index (op : WriteOp Doc) : (if ordered = false ∨ lastError = none then op.noteWriteComplete write
      else op.cancelWrites lastError).itemIndex = op.itemIndex := by
  split
  · exact updateOpState_index _
  · rfl

theorem noteWrites_indices (ops : List (WriteOp Doc)) :
    (noteWrites ordered writes index errors lastError ops).map (·.itemIndex) = ops.map (·.itemIndex) := by
  induction writes generalizing index errors lastError ops with
  | nil => rfl
  | cons write writes ih =>
    unfold noteWrites
    split
    · split
      · rw [ih,modify_indices]
        exact fun op => updateOpState_index _
      · rw [ih,modify_indices quiet_index]
    · rw [ih,modify_indices quiet_index]

theorem stage_perm (stage : Stage ops batches) (perm : batches.Perm others) : Stage ops others := by
  cases stage with
  | settled completed fresh =>
    cases nil_perm.mp perm
    exact .settled completed fresh
  | failed completed erred fresh =>
    cases nil_perm.mp perm
    exact .failed completed erred fresh
  | joined completed waits fresh =>
    cases singleton_perm.mp perm
    exact .joined completed waits fresh
  | spread completed spread more fresh same =>
    exact .spread completed spread more fresh (perm.symm.trans same)

theorem completed_snoc (completed : Completed done) (own : op.state = .completed) : Completed (done++[op]) := by
  intro other mem
  rcases mem_append.mp mem with earlier | last
  · exact completed other earlier
  · cases mem_singleton.mp last
    exact own

theorem stage_settles (completed : Completed done) (settles : Settles op settled) (fresh : AllFresh behind) :
    Stage (done++settled :: behind) [] := by
  rcases settles.2 with own | own | own
  · have stage := Stage.settled (completed_snoc completed own) fresh
    rwa [append_assoc] at stage
  · exact .settled completed (forall_mem_cons.mpr ⟨own,fresh⟩)
  · exact .failed completed own fresh

theorem numbered_next (numbered : Numbered (done++op :: behind)) (same : changed.itemIndex = op.itemIndex) :
    Numbered ((done++[changed])++behind) :=
  numbered_same numbered (by simp [same])

theorem noteWrites_cancels (index : Nat) (error : WriteErrorDetail)
    (waits : List.Forall₂ Waits waiting writes) (numbered : Numbered (before++(waiting++behind))) :
    ∃ cancelled, AllFresh cancelled ∧ noteWrites true writes index [] (some error) (before++(waiting++behind)) =
        before++(cancelled++behind) := by
  induction waits generalizing before index with
  | nil => exact ⟨[],nofun,rfl⟩
  | @cons op write waiting writes own _ ih =>
    have here : write.writeOpRef.1 = before.length := by
      rw [own.2.2]
      exact numbered_middle numbered
    have next := cancelWrites_fresh op (some error)
    obtain ⟨cancelled,fresh,equal⟩ := ih (index+1) (numbered_next numbered next.2)
    refine ⟨op.cancelWrites (some error) :: cancelled,forall_mem_cons.mpr ⟨next.1,fresh⟩,?_⟩
    simp only [noteWrites,here,cons_append,modify_middle]
    simpa using equal

theorem noteWrites_joined (index : Nat) (completed : Completed done)
    (waits : List.Forall₂ Waits waiting writes) (fresh : AllFresh behind)
    (few : errors.length ≤ 1) (numbered : Numbered (done++(waiting++behind))) :
    Stage (noteWrites true writes index errors none (done++(waiting++behind))) [] := by
  induction waits generalizing done index with
  | nil => exact .settled completed fresh
  | @cons op write waiting writes own rest ih =>
    have here : write.writeOpRef.1 = done.length := by
      rw [own.2.2]
      exact numbered_middle numbered
    obtain ⟨done',same⟩ := waits_completed own
    have onward := ih (index+1) (completed_snoc completed done') (numbered_next numbered same)
    cases errors with
    | nil =>
      simp only [noteWrites,here,cons_append,modify_middle]
      simpa using onward
    | cons error others =>
      simp only [noteWrites,here,cons_append,modify_middle]
      split
      · cases length_eq_zero_iff.mp (Nat.le_zero.mp (Nat.le_of_succ_le_succ few))
        have settles : Settles op (op.noteWriteError write error) :=
          spread_last (waits_spread own) failChild_notes
        obtain ⟨cancelled,cancels,equal⟩ := noteWrites_cancels (index+1) error rest
          (numbered_next numbered settles.1)
        rw [append_assoc,append_assoc,singleton_append,singleton_append] at equal
        rw [equal]
        refine stage_settles completed settles ?_
        exact forall_mem_append.mpr ⟨cancels,fresh⟩
      · simpa using onward

theorem noteWrites_one (here : write.writeOpRef.1 = done.length) : ∃ note, Notes op.itemIndex note ∧
      noteWrites true [write] index errors none (done++op :: behind) =
        done++(noted note write.writeOpRef.2 op).updateOpState :: behind := by
  have completes : ∃ note, Notes op.itemIndex note ∧ done++op.noteWriteComplete write :: behind =
        done++(noted note write.writeOpRef.2 op).updateOpState :: behind :=
    ⟨completeChild write,completeChild_notes,rfl⟩
  cases errors with
  | nil =>
    simp only [noteWrites,here,modify_middle]
    exact completes
  | cons error others =>
    simp only [noteWrites,here,modify_middle]
    split
    · exact ⟨failChild write error op.itemIndex,failChild_notes,rfl⟩
    · exact completes

-- The answer for one of the batches that are out, with at most one error in it.
theorem stage_noted (stage : Stage ops (batch :: left)) (few : errors.length ≤ 1) (numbered : Numbered ops) :
    Stage (noteWrites true batch.writes 0 errors none ops) left := by
  cases stage with
  | joined completed waits fresh => exact noteWrites_joined 0 completed waits fresh few numbered
  | @spread done op fresh _ writes completed spread _ behind perm =>
    obtain ⟨write,mem,rfl⟩ := mem_map.mp (perm.mem_iff.mp (.head _))
    obtain ⟨front,back,rfl⟩ := append_of_mem mem
    have first := spread_perm spread perm_middle
    have others : left.Perm ((front++back).map alone) :=
      ((perm.trans (perm_middle.map alone)).cons_inv)
    have here : write.writeOpRef.1 = done.length := by
      rw [(spread.awaited write mem).1]
      exact numbered_middle numbered
    obtain ⟨note,notes,equal⟩ := noteWrites_one here
    rw [show (alone write).writes = [write] from rfl,equal]
    by_cases last : front++back = []
    · rw [last] at first others
      cases perm_nil.mp others
      exact stage_settles completed (spread_last first notes) behind
    · exact .spread completed (spread_next first last notes) last behind others

theorem completed_finished (completed : Completed done) :
    finishedOps true (done++behind) = finishedOps true behind := by
  induction done with
  | nil => rfl
  | cons op done ih =>
    obtain ⟨own,others⟩ := forall_mem_cons.mp completed
    simp [finishedOps,unfinished,own,ih others]

theorem failed_finished (completed : Completed done) (erred : Erred op) :
    finishedOps true (done++op :: behind) = true := by
  rw [completed_finished completed]
  simp [finishedOps,unfinished,erred.1]

theorem fresh_unfinished (completed : Completed done) (fresh : Fresh op) :
    finishedOps true (done++op :: behind) = false := by
  rw [completed_finished completed]
  simp [finishedOps,unfinished,fresh.1]

end

end Mongo.OrderedBatch
