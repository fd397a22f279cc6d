import SipxExternals.MongoChunkClones

namespace Mongo.Metadata
open Foundations.Segments Foundations.Ranges
open BsonCompare (Mixed double53)
open List (forall_mem_append forall_mem_cons)
variable {ν : Type} {bson : Bson ν}

inductive Op (ν : Type) where
  | migrate (chunk : ChunkType ν) (newShardVersion : ChunkVersion)
  | plusChunk (chunk : ChunkType ν) (newShardVersion : ChunkVersion)
  | split (chunk : ChunkType ν) (splitKeys : List (BSONObj ν)) (newShardVersion : ChunkVersion)
  | merge (minKey maxKey : BSONObj ν) (newShardVersion : ChunkVersion)
  | plusPending (pending : ChunkType ν)
  | minusPending (pending : ChunkType ν)

def Op.range : Op ν → Range ν
  | .migrate chunk _ | .plusChunk chunk _ | .split chunk _ _ => (chunk.min,chunk.max)
  | .merge minKey maxKey _ => (minKey,maxKey)
  | .plusPending pending | .minusPending pending => (pending.min,pending.max)

def perform (bson : Bson ν) (self : CollectionMetadata ν) : Op ν → Reply ν
  | .migrate chunk version => cloneMigrate bson self chunk version
  | .plusChunk chunk version => clonePlusChunk bson self chunk version
  | .split chunk splitKeys version => cloneSplit bson self chunk splitKeys version
  | .merge minKey maxKey version => cloneMerge bson self minKey maxKey version
  | .plusPending pending => clonePlusPending bson self pending
  | .minusPending pending => cloneMinusPending bson self pending

-- Each call is made on what the last successful one returned.
def run (bson : Bson ν) : CollectionMetadata ν → List (Op ν) → Option (CollectionMetadata ν)
  | self,[] => some self
  | self,op :: ops =>
    match perform bson self op with
    | .cloned next => run bson next ops
    | .refused _ => run bson self ops
    | .aborted | .undefined => none

-- A non-empty range; where a chunk is added, its bound is not the empty object, with which
-- fillRanges marks that it has no range yet.
def Op.Proper (bson : Bson ν) (op : Op ν) : Prop :=
  woCompare bson op.range.1 op.range.2 < 0 ∧ ∀ chunk version, op = .plusChunk chunk version → chunk.min ≠ []

def NoChunks (bson : Bson ν) (metadata : CollectionMetadata ν) : Prop :=
  metadata.keyPattern ≠ [] ∧ metadata.chunksMap = [] ∧ metadata.rangesMap = [] ∧ Disjoint bson metadata.pendingMap ∧
    metadata.shardVersion.combined ≤ metadata.collVersion.combined

structure Consistent (bson : Bson ν) (metadata : CollectionMetadata ν) : Prop where
  chunks : Disjoint bson metadata.chunksMap
  pending : Disjoint bson metadata.pendingMap
  versions : metadata.shardVersion.combined ≤ metadata.collVersion.combined
  belongs : ∀ key, keyBelongsToMe bson metadata key = true ↔
    ∃ chunk ∈ metadata.chunksMap, rangeContains bson chunk.1 chunk.2 key = true
  awaited : ∀ key, keyIsPending bson metadata key = true ↔
    ∃ pending ∈ metadata.pendingMap, rangeContains bson pending.1 pending.2 key = true

def Effect (bson : Bson ν) (self next : CollectionMetadata ν) (op : Op ν) (key : BSONObj ν) : Prop :=
  let given := rangeContains bson op.range.1 op.range.2 key = true
  let belonged := keyBelongsToMe bson self key = true
  let belongs := keyBelongsToMe bson next key = true
  match op with
  | .migrate .. => (given → belonged) ∧ (belongs ↔ belonged ∧ ¬given)
  | .plusChunk .. => (given → ¬belonged) ∧ (belongs ↔ belonged ∨ given)
  | .split .. | .merge .. | .plusPending .. | .minusPending .. => belongs ↔ belonged

section
variable {β : Type} [LinearOrder β] {rank : BSONObj ν → β} {self next : CollectionMetadata ν}

structure Sound (rank : BSONObj ν → β) (metadata : CollectionMetadata ν) : Prop where
  sharded : metadata.keyPattern ≠ []
  chunks : Ranged rank metadata.chunksMap
  pending : Ranged rank metadata.pendingMap
  ranges : Ranged rank metadata.rangesMap
  covered : ∀ key, Covers rank metadata.rangesMap key ↔ Covers rank metadata.chunksMap key
  named : ∀ chunk ∈ metadata.chunksMap, chunk.1 ≠ []
  versions : metadata.shardVersion.combined ≤ metadata.collVersion.combined

theorem lookup_covers (ranked : Ranked (woCompare bson) rank) (ranged : Ranged rank ranges) :
    (if ranges.length ≤ 0 then false else rangeHolds bson ranges key) = true ↔ Covers rank ranges key := by
  split
  · rename_i none
    have nothing : ranges = [] := List.length_eq_zero_iff.mp (Nat.le_zero.mp none)
    simp [nothing]
  · exact rangeHolds_covers ranked ranged

section
variable (sound : Sound rank self) (ranked : Ranked (woCompare bson) rank) (key : BSONObj ν)
include sound ranked key

theorem Sound.belongs : keyBelongsToMe bson self key = true ↔ Covers rank self.chunksMap key := by
  unfold keyBelongsToMe
  rw [if_neg (by simpa using sound.sharded),← sound.covered]
  exact lookup_covers ranked sound.ranges

theorem Sound.awaited : keyIsPending bson self key = true ↔ Covers rank self.pendingMap key := by
  unfold keyIsPending
  rw [if_neg (by simpa using sound.sharded)]
  exact lookup_covers ranked sound.pending

end

section
variable (ranked : Ranked (woCompare bson) rank) (sound : Sound rank self)
include ranked sound

theorem sound_consistent : Consistent bson self := by
  refine ⟨(disjoint_iff ranked).mpr sound.chunks,(disjoint_iff ranked).mpr sound.pending,sound.versions,?_,?_⟩
  · intro key
    rw [sound.belongs ranked]
    simp [Covers,contains_within ranked]
  · intro key
    rw [sound.awaited ranked]
    simp [Covers,contains_within ranked]

theorem withChunks_sound (ranged : Ranged rank chunks) (named : ∀ chunk ∈ chunks, chunk.1 ≠ []) :
    Sound rank (withChunks bson self chunks version) := by
  obtain ⟨pattern,pending,same,shard,coll⟩ := withChunks_fields bson self
  obtain ⟨ranges,covered⟩ := withChunks_ranges ranked ranged named self
  constructor
  · exact pattern ▸ sound.sharded
  · exact same.symm ▸ ranged
  · exact pending.symm ▸ sound.pending
  · exact ranges
  · intro key
    rw [covered,same]
  · exact same.symm ▸ named
  · rw [shard,coll]
    exact laterVersion_max

theorem withChunks_belongs (ranged : Ranged rank chunks) (named : ∀ chunk ∈ chunks, chunk.1 ≠ []) :
    keyBelongsToMe bson (withChunks bson self chunks version) key = true ↔ Covers rank chunks key := by
  rw [(withChunks_sound ranked sound ranged named).belongs ranked,(withChunks_fields bson self).2.2.1]

def Kept (bson : Bson ν) (rank : BSONObj ν → β) (self : CollectionMetadata ν) (op : Op ν) (reply : Reply ν) : Prop :=
  reply ≠ .undefined ∧ ∀ next, reply = .cloned next → Sound rank next ∧ ∀ key, Effect bson self next op key

omit ranked sound in
theorem kept_refused (refused : ∃ errMsg, reply = .refused errMsg) : Kept bson rank self op reply := by
  obtain ⟨errMsg,rfl⟩ := refused
  refine ⟨?_,?_⟩
  · intro wrong
    cases wrong
  · intro next wrong
    cases wrong

omit ranked sound in
theorem kept_cloned (cloned : reply = .cloned next) (sound : Sound rank next) (effect : ∀ key, Effect bson self next op key) :
    Kept bson rank self op reply := by
  subst cloned
  refine ⟨?_,?_⟩
  · intro wrong
    cases wrong
  · intro other same
    cases same
    exact ⟨sound,effect⟩

theorem migrate_kept (proper : rank chunk.min < rank chunk.max) :
    Kept bson rank self (.migrate chunk version) (cloneMigrate bson self chunk version) := by
  rcases cloneMigrate_outcome ranked sound.chunks proper version with refused | ⟨before,held,after,whole,starts,ends,cloned⟩
  · exact kept_refused refused
  obtain ⟨rest,_,placed⟩ := ranged_middle.mp (whole ▸ sound.chunks)
  have named := sound.named
  rw [whole,forall_mem_append,forall_mem_cons] at named
  have kept := forall_mem_append.mpr ⟨named.1,named.2.2⟩
  refine kept_cloned cloned (withChunks_sound ranked sound rest kept) fun key => ?_
  have given : rangeContains bson chunk.min chunk.max key = true ↔ Within rank held key := by
    rw [contains_within ranked (chunk.min,chunk.max)]
    exact within_congr starts.symm ends.symm
  simp only [Effect,Op.range,given,sound.belongs ranked,withChunks_belongs ranked sound rest kept,whole,
    covers_append,covers_cons]
  have alone : Within rank held key → ¬Covers rank before key ∧ ¬Covers rank after key := placed_alone placed
  tauto

theorem plusChunk_kept (proper : rank chunk.min < rank chunk.max) (stated : chunk.min ≠ []) :
    Kept bson rank self (.plusChunk chunk version) (clonePlusChunk bson self chunk version) := by
  rcases clonePlusChunk_outcome ranked sound.chunks proper version with refused | ⟨before,after,whole,placed,cloned⟩
  · exact kept_refused refused
  have larger := ranged_middle.mpr ⟨whole ▸ sound.chunks,proper,placed⟩
  have named := sound.named
  rw [whole,forall_mem_append] at named
  have kept : ∀ other ∈ before++(chunk.min,chunk.max) :: after, other.1 ≠ [] :=
    forall_mem_append.mpr ⟨named.1,forall_mem_cons.mpr ⟨stated,named.2⟩⟩
  refine kept_cloned cloned (withChunks_sound ranked sound larger kept) fun key => ?_
  simp only [Effect,Op.range,contains_within ranked (chunk.min,chunk.max),sound.belongs ranked,
    withChunks_belongs ranked sound larger kept,whole,covers_append,covers_cons]
  have new : Within rank (chunk.min,chunk.max) key → ¬Covers rank before key ∧ ¬Covers rank after key :=
    placed_alone placed
  tauto

theorem split_kept (proper : rank chunk.min < rank chunk.max) :
    Kept bson rank self (.split chunk keys version) (cloneSplit bson self chunk keys version) := by
  rcases cloneSplit_outcome ranked sound.chunks proper with
    refused | ⟨before,held,after,whole,starts,ends,inside,⟨chain,reached,cloned⟩ | ⟨_,aborted⟩⟩
  · exact kept_refused refused
  · obtain ⟨rest,short,placed⟩ := ranged_middle.mp (whole ▸ sound.chunks)
    obtain ⟨larger,kept,covers⟩ := split_replaces rest short placed starts ends (fun key mem => (inside key mem).2) chain
    have named := sound.named
    rw [whole,forall_mem_append,forall_mem_cons] at named
    have stated : ∀ piece ∈ before++(splitPieces chunk.max held keys++after), piece.1 ≠ [] := by
      refine forall_mem_append.mpr ⟨named.1,forall_mem_append.mpr ⟨?_,named.2.2⟩⟩
      intro piece mem empty
      cases lt_or_eq_of_le (kept piece mem) with
      | inl above => exact empty_least ranked above empty
      | inr same => exact named.2.1 (empty_rank ranked (empty ▸ same))
    refine kept_cloned cloned (withChunks_sound ranked sound larger stated) fun key => ?_
    simp only [Effect,sound.belongs ranked,withChunks_belongs ranked sound larger stated,whole,
      covers_append,covers_cons,covers]
  · rw [aborted]
    refine ⟨?_,?_⟩
    · intro wrong
      cases wrong
    · intro next wrong
      cases wrong

theorem merge_kept (proper : rank minKey < rank maxKey) :
    Kept bson rank self (.merge minKey maxKey version) (cloneMerge bson self minKey maxKey version) := by
  rcases cloneMerge_outcome ranked sound.chunks proper with
    refused | ⟨before,inside,after,first,whole,placed,mem,starts,covers,cloned⟩
  · exact kept_refused refused
  have rest : Ranged rank (before++after) :=
    ranged_sublist (whole ▸ sound.chunks) ((List.sublist_append_right inside after).append_left before)
  have named := sound.named
  rw [whole,forall_mem_append,forall_mem_append] at named
  have stated : minKey ≠ [] := fun empty => named.2.1 first mem (empty_rank ranked (empty ▸ starts))
  have same : ∀ key, Covers rank (before++(minKey,maxKey) :: after) key ↔ Covers rank self.chunksMap key := by
    intro key
    simp [whole,covers_append,covers_cons,covers]
  refine kept_cloned cloned ⟨sound.sharded,ranged_middle.mpr ⟨rest,proper,placed⟩,sound.pending,sound.ranges,?_,?_,?_⟩ fun key => ?_
  · intro key
    rw [sound.covered]
    exact (same key).symm
  · exact forall_mem_append.mpr ⟨named.1,forall_mem_cons.mpr ⟨stated,named.2.2⟩⟩
  · exact laterVersion_max
  · exact .rfl

theorem plusPending_kept (proper : rank pending.min < rank pending.max) :
    Kept bson rank self (.plusPending pending) (clonePlusPending bson self pending) := by
  rcases clonePlusPending_outcome ranked sound.chunks sound.pending proper with
    refused | ⟨before,inside,after,whole,placed,cloned⟩
  · exact kept_refused refused
  have rest : Ranged rank (before++after) :=
    ranged_sublist (whole ▸ sound.pending) ((List.sublist_append_right inside after).append_left before)
  exact kept_cloned cloned ⟨sound.sharded,sound.chunks,ranged_middle.mpr ⟨rest,proper,placed⟩,sound.ranges,sound.covered,
    sound.named,sound.versions⟩ fun key => .rfl

theorem minusPending_kept (proper : rank pending.min < rank pending.max) :
    Kept bson rank self (.minusPending pending) (cloneMinusPending bson self pending) := by
  rcases cloneMinusPending_outcome ranked sound.pending proper with refused | ⟨before,held,after,whole,cloned⟩
  · exact kept_refused refused
  · obtain ⟨rest,_,_⟩ := ranged_middle.mp (whole ▸ sound.pending)
    exact kept_cloned cloned ⟨sound.sharded,sound.chunks,rest,sound.ranges,sound.covered,sound.named,sound.versions⟩
      fun key => .rfl

theorem perform_kept (proper : op.Proper bson) : Kept bson rank self op (perform bson self op) := by
  obtain ⟨range,stated⟩ := proper
  have proper := (ranked.lt _ _).mp range
  cases op with
  | migrate chunk version => exact migrate_kept ranked sound proper
  | plusChunk chunk version => exact plusChunk_kept ranked sound proper (stated chunk version rfl)
  | split chunk keys version => exact split_kept ranked sound proper
  | merge minKey maxKey version => exact merge_kept ranked sound proper
  | plusPending pending => exact plusPending_kept ranked sound proper
  | minusPending pending => exact minusPending_kept ranked sound proper

theorem run_sound (proper : ∀ op ∈ ops, op.Proper bson)
    (ran : run bson self ops = some reached) : Sound rank reached := by
  induction ops generalizing self with
  | nil =>
    cases ran
    exact sound
  | cons op ops ih =>
    have kept := perform_kept ranked sound (proper op (.head _))
    have later := (forall_mem_cons.mp proper).2
    rw [run] at ran
    cases reply : perform bson self op with
    | cloned next =>
      rw [reply] at ran
      exact ih (kept.2 next reply).1 later ran
    | refused errMsg =>
      rw [reply] at ran
      exact ih sound later ran
    | aborted | undefined =>
      rw [reply] at ran
      cases ran

end

end

theorem chunk_runs_consistent {keys : Keys ν} (order : TotalPreorder keys.bson.elementCompare) {start reached : CollectionMetadata ν}
    (fresh : NoChunks keys.bson start) {ops : List (Op ν)} (proper : ∀ op ∈ ops, op.Proper keys.bson)
    (ran : run keys.bson start ops = some reached) :
    Consistent keys.bson reached ∧ ∀ op : Op ν, op.Proper keys.bson → perform keys.bson reached op ≠ .undefined ∧
      ∀ next, perform keys.bson reached op = .cloned next → ∀ key, Effect keys.bson reached next op key := by
  obtain ⟨β,_,rank,ranked⟩ := exists_rank (woCompare_preorder order)
  obtain ⟨sharded,chunks,ranges,pending,versions⟩ := fresh
  have sound : Sound rank start := by
    refine ⟨sharded,?_,(disjoint_iff ranked).mp pending,?_,?_,?_,versions⟩
    · exact chunks ▸ ranged_nil
    · exact ranges ▸ ranged_nil
    · intro key
      rw [chunks,ranges]
    · simp [chunks]
  have reached_sound := run_sound ranked sound proper ran
  refine ⟨sound_consistent ranked reached_sound,fun op allowed => ?_⟩
  obtain ⟨defined,cloned⟩ := perform_kept ranked reached_sound allowed
  exact ⟨defined,fun next reply => (cloned next reply).2⟩

def sampleStart : CollectionMetadata Int where
  collVersion := sampleVersion 1
  shardVersion := sampleVersion 0
  keyPattern := sampleKey 1
  pendingMap := []
  chunksMap := []
  rangesMap := []

theorem sampleStart_fresh : NoChunks sampleBson sampleStart := by
  exact ⟨List.cons_ne_nil _ _,rfl,rfl,disjoint_nil,by decide⟩

def sampleOps : List (Op Int) :=
  [.plusChunk ⟨sampleKey 0,sampleKey 10⟩ (sampleVersion 2),.plusPending ⟨sampleKey 10,sampleKey 20⟩,
    .split ⟨sampleKey 0,sampleKey 10⟩ [sampleKey 3,sampleKey 6] (sampleVersion 3),
    .merge (sampleKey 3) (sampleKey 10) (sampleVersion 4)]

def sampleEnd : CollectionMetadata Int where
  collVersion := sampleVersion 4
  shardVersion := sampleVersion 4
  keyPattern := sampleKey 1
  pendingMap := [(sampleKey 10,sampleKey 20)]
  chunksMap := [(sampleKey 0,sampleKey 3),(sampleKey 3,sampleKey 10)]
  rangesMap := [(sampleKey 0,sampleKey 10)]

theorem sampleOps_proper : ∀ op ∈ sampleOps, op.Proper sampleBson := by
  have proper : ∀ op ∈ sampleOps, woCompare sampleBson op.range.1 op.range.2 < 0 := by decide
  refine fun op member => ⟨proper op member,?_⟩
  rintro chunk version rfl
  simp only [sampleOps,List.mem_cons,Op.plusChunk.injEq,reduceCtorEq,List.not_mem_nil,or_false] at member
  simp [member.1,sampleKey]

theorem chunk_runs_consistent_sample :
    run sampleBson sampleStart sampleOps = some sampleEnd ∧ Consistent sampleBson sampleEnd :=
  ⟨by decide,(chunk_runs_consistent sampleBson_order sampleStart_fresh sampleOps_proper (by decide)).1⟩

def mixedStart : CollectionMetadata Mixed where
  collVersion := sampleVersion 1
  shardVersion := sampleVersion 0
  keyPattern := longKey 1
  pendingMap := []
  chunksMap := []
  rangesMap := []

-- A chunk that starts at the empty object is dropped from the ranges as soon as there is another one.
-- A chunk that ends at the double 2^53 is joined to one that starts at 2^53+1, with the long 2^53 between them.
theorem empty_bound_lost : NoChunks sampleBson sampleStart ∧
    (∃ ops reached, (∀ op ∈ ops, woCompare sampleBson op.range.1 op.range.2 < 0) ∧
      run sampleBson sampleStart ops = some reached ∧
      keyBelongsToMe sampleBson reached (sampleKey 0) = false ∧
      ∃ chunk ∈ reached.chunksMap, rangeContains sampleBson chunk.1 chunk.2 (sampleKey 0) = true) ∧
    NoChunks mixedBson mixedStart ∧
    ∃ ops reached, (∀ op ∈ ops, woCompare mixedBson op.range.1 op.range.2 < 0) ∧
      run mixedBson mixedStart ops = some reached ∧
      keyBelongsToMe mixedBson reached (longKey (2^53)) = true ∧
      ∀ chunk ∈ reached.chunksMap, rangeContains mixedBson chunk.1 chunk.2 (longKey (2^53)) = false := by
  refine ⟨sampleStart_fresh,?_,⟨List.cons_ne_nil _ _,rfl,rfl,disjoint_nil,by decide⟩,?_⟩
  · refine ⟨[.plusChunk ⟨[],sampleKey 1⟩ (sampleVersion 2),.plusChunk ⟨sampleKey 5,sampleKey 10⟩ (sampleVersion 3)],
      { sampleStart with
        collVersion := sampleVersion 3
        shardVersion := sampleVersion 3
        chunksMap := [([],sampleKey 1),(sampleKey 5,sampleKey 10)]
        rangesMap := [(sampleKey 5,sampleKey 10)] },?_⟩
    decide
  · refine ⟨[.plusChunk ⟨longKey 0,mixedKey double53⟩ (sampleVersion 2),
        .plusChunk ⟨longKey (2^53+1),longKey (2^53+9)⟩ (sampleVersion 3)],
      { mixedStart with
        collVersion := sampleVersion 3
        shardVersion := sampleVersion 3
        chunksMap := [(longKey 0,mixedKey double53),(longKey (2^53+1),longKey (2^53+9))]
        rangesMap := [(longKey 0,longKey (2^53+9))] },?_⟩
    decide +kernel

end Mongo.Metadata
