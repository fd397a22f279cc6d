import SipxExternals.MongoRangeMaps

namespace Mongo.Metadata
open Foundations Foundations.Segments Foundations.Ranges
open SortedMap (insert_between)
open BsonCompare
variable {ν : Type} {bson : Bson ν}

section
variable {β : Type} [LinearOrder β] {rank : BSONObj ν → β} {self next : CollectionMetadata ν} {chunk : ChunkType ν}

theorem withChunks_fields (bson : Bson ν) (self : CollectionMetadata ν) :
    (withChunks bson self chunks version).keyPattern = self.keyPattern ∧
    (withChunks bson self chunks version).pendingMap = self.pendingMap ∧
    (withChunks bson self chunks version).chunksMap = chunks ∧
    (withChunks bson self chunks version).shardVersion = version ∧
    (withChunks bson self chunks version).collVersion = laterVersion version self.collVersion := by
  unfold withChunks fillRanges
  split <;> simp

section
variable (ranked : Ranked (woCompare bson) rank)
include ranked

theorem withChunks_ranges (ranged : Ranged rank chunks)
    (named : ∀ chunk ∈ chunks, chunk.1 ≠ []) (self : CollectionMetadata ν) :
    Ranged rank (withChunks bson self chunks version).rangesMap ∧
      ∀ key, Covers rank (withChunks bson self chunks version).rangesMap key ↔ Covers rank chunks key := by
  unfold withChunks fillRanges
  cases chunks with
  | nil => exact ⟨ranged_nil,fun key => .rfl⟩
  | cons first rest =>
    obtain ⟨proper,others,later⟩ := ranged_cons.mp ranged
    have filled := fillLoop_covers ranked (named first (.head _)) proper ranged_nil (by simp) others later
    simpa [fillLoop] using filled

omit ranked in
theorem laterVersion_max : version.combined ≤ (laterVersion version current).combined := by
  unfold laterVersion
  split
  · exact le_rfl
  · omega

theorem notContained_refuses (ranged : Ranged rank ranges) (proper : rank chunk.min < rank chunk.max) :
    ∃ errMsg, notContained bson action ranges chunk = .refused errMsg := by
  obtain ⟨before,inside,after,found⟩ := exists_overlap ranked ranged proper
  simp only [notContained,getRangeMapOverlap_inside found]
  split <;> exact ⟨_,rfl⟩

theorem overlapping_refuses (ranged : Ranged rank ranges) (proper : rank chunk.min < rank chunk.max) :
    ∃ errMsg, overlapping bson action ranges chunk = .refused errMsg := by
  obtain ⟨before,inside,after,found⟩ := exists_overlap ranked ranged proper
  simp only [overlapping,getRangeMapOverlap_inside found]
  exact ⟨_,rfl⟩

omit ranked in
theorem Overlap.placed (found : Overlap bson rank ranges lower upper before inside after) :
    Placed rank before after (lower,upper) :=
  ⟨found.low,fun other mem => (found.high other mem).2⟩

theorem placed_insert (placed : Placed rank before after range)
    (proper : rank range.1 < rank range.2) (left : Ranged rank before) :
    SortedMap.insert (woCompare bson) range (before++after) = before++range :: after :=
  insert_between ranked (fun other mem => lt_of_lt_of_le (left.proper other mem) (placed.low other mem))
    fun other mem => lt_of_lt_of_le proper (placed.high other mem)

section
variable (ranged : Ranged rank self.chunksMap) (proper : rank chunk.min < rank chunk.max) (version : ChunkVersion)
include ranged proper version

theorem cloneMigrate_outcome : (∃ errMsg, cloneMigrate bson self chunk version = .refused errMsg) ∨
    ∃ before held after, self.chunksMap = before++held :: after ∧ rank held.1 = rank chunk.min ∧
      rank held.2 = rank chunk.max ∧
      cloneMigrate bson self chunk version = .cloned (withChunks bson self (before++after) version) := by
  unfold cloneMigrate
  by_cases contained : rangeMapContains bson self.chunksMap chunk.min chunk.max = true
  · obtain ⟨before,held,after,whole,starts,ends⟩ := rangeMapContains_held ranked ranged proper contained
    rw [if_neg (by simp [contained])]
    split
    · exact .inl ⟨_,rfl⟩
    split
    · exact .inl ⟨_,rfl⟩
    · refine .inr ⟨before,held,after,whole,starts,ends,?_⟩
      rw [whole] at ranged ⊢
      rw [eraseKey_held ranked ranged starts]
  · rw [if_pos (by simp [contained])]
    exact .inl (notContained_refuses ranked ranged proper)

theorem clonePlusChunk_outcome : (∃ errMsg, clonePlusChunk bson self chunk version = .refused errMsg) ∨
    ∃ before after, self.chunksMap = before++after ∧ Placed rank before after (chunk.min,chunk.max) ∧
      clonePlusChunk bson self chunk version =
        .cloned (withChunks bson self (before++(chunk.min,chunk.max) :: after) version) := by
  obtain ⟨before,inside,after,found⟩ := exists_overlap ranked ranged proper
  unfold clonePlusChunk
  split
  · exact .inl ⟨_,rfl⟩
  rw [if_neg (not_not.mpr ((ranked.lt _ _).mpr proper))]
  by_cases overlaps : rangeMapOverlaps bson self.chunksMap chunk.min chunk.max = true
  · rw [if_pos overlaps]
    exact .inl (overlapping_refuses ranked ranged proper)
  rw [if_neg overlaps]
  have nothing : inside = [] := not_not.mp (mt (rangeMapOverlaps_iff found).mpr overlaps)
  have whole := found.whole
  subst nothing
  rw [List.nil_append] at whole
  rw [whole] at ranged ⊢
  obtain ⟨left,_,_⟩ := ranged_append.mp ranged
  exact .inr ⟨before,after,rfl,found.placed,by rw [placed_insert ranked found.placed proper left]⟩

end

theorem cloneMinusPending_outcome (ranged : Ranged rank self.pendingMap) (proper : rank chunk.min < rank chunk.max) :
    (∃ errMsg, cloneMinusPending bson self chunk = .refused errMsg) ∨
    ∃ before held after, self.pendingMap = before++held :: after ∧
      cloneMinusPending bson self chunk = .cloned { self with pendingMap := before++after } := by
  unfold cloneMinusPending
  by_cases contained : rangeMapContains bson self.pendingMap chunk.min chunk.max = true
  · obtain ⟨before,held,after,whole,starts,_⟩ := rangeMapContains_held ranked ranged proper contained
    rw [if_neg (by simp [contained])]
    refine .inr ⟨before,held,after,whole,?_⟩
    rw [whole] at ranged ⊢
    rw [eraseKey_held ranked ranged starts]
  · rw [if_pos (by simp [contained])]
    exact .inl (notContained_refuses ranked ranged proper)

theorem clonePlusPending_outcome (chunks : Ranged rank self.chunksMap)
    (ranged : Ranged rank self.pendingMap) (proper : rank chunk.min < rank chunk.max) :
    (∃ errMsg, clonePlusPending bson self chunk = .refused errMsg) ∨
    ∃ before inside after, self.pendingMap = before++(inside++after) ∧ Placed rank before after (chunk.min,chunk.max) ∧
      clonePlusPending bson self chunk = .cloned { self with pendingMap := before++(chunk.min,chunk.max) :: after } := by
  obtain ⟨before,inside,after,found⟩ := exists_overlap ranked ranged proper
  unfold clonePlusPending
  split
  · exact .inl (overlapping_refuses ranked chunks proper)
  refine .inr ⟨before,inside,after,found.whole,found.placed,?_⟩
  have kept := found.whole ▸ ranged
  obtain ⟨left,_,_⟩ := ranged_append.mp kept
  by_cases overlaps : rangeMapOverlaps bson self.pendingMap chunk.min chunk.max = true
  · rw [if_pos overlaps,getRangeMapOverlap_inside found]
    simp only
    rw [found.whole,erase_all ranked kept,placed_insert ranked found.placed proper left]
  have nothing : inside = [] := not_not.mp (mt (rangeMapOverlaps_iff found).mpr overlaps)
  have whole := found.whole
  rw [nothing,List.nil_append] at whole
  rw [if_neg overlaps,whole,placed_insert ranked found.placed proper left]

end

end

section
variable {β : Type} [LinearOrder β] {rank : BSONObj ν → β} {self : CollectionMetadata ν} {chunk : ChunkType ν}

def splitPieces (max : BSONObj ν) : Range ν → List (BSONObj ν) → RangeMap ν
  | first,[] => [first]
  | first,key :: keys => (first.1,key) :: splitPieces max (key,max) keys

abbrev Rising (rank : BSONObj ν → β) (keys : List (BSONObj ν)) : Prop := keys.IsChain fun a b => rank a < rank b

theorem splitLoop_pieces (ranked : Ranked (woCompare bson) rank) (held : Range ν) {max : BSONObj ν}
    (below : ∀ key ∈ keys, rank key < rank max) (high : ∀ range ∈ after, rank max ≤ rank range.1)
    (low : ∀ range ∈ before, rank range.1 < rank startKey) (starts : rank held.1 = rank startKey) :
    (Rising rank (startKey :: keys) → splitLoop bson max startKey keys (before++held :: after) version =
      some (before++(splitPieces max held keys++after),keys.foldl (fun version _ => version.incMinor) version)) ∧
    (¬Rising rank (startKey :: keys) → splitLoop bson max startKey keys (before++held :: after) version = none) := by
  induction keys generalizing before held startKey version with
  | nil => exact ⟨fun _ => rfl,fun wrong => absurd (.singleton _) wrong⟩
  | cons key keys ih =>
    rw [splitLoop,Rising,List.isChain_cons_cons]
    by_cases rises : rank startKey < rank key
    · rw [if_pos ((ranked.gt _ _).mpr rises),assign_held ranked low starts]
      have earlier : ∀ range ∈ before++[(held.1,key)], rank range.1 < rank key := by
        intro range mem
        cases List.mem_append.mp mem with
        | inl mem => exact lt_trans (low range mem) rises
        | inr mem =>
          cases List.mem_singleton.mp mem
          exact starts ▸ rises
      have placed : SortedMap.insert (woCompare bson) (key,max) (before++(held.1,key) :: after) = (before++[(held.1,key)])++(key,max) :: after := by
        rw [← List.singleton_append,← List.append_assoc]
        exact insert_between ranked earlier fun range mem =>
          lt_of_lt_of_le (below key (.head _)) (high range mem)
      obtain ⟨rising,falling⟩ := ih (key,max) (List.forall_mem_cons.mp below).2 earlier rfl
      rw [placed]
      constructor
      · intro chain
        rw [rising chain.2]
        simp [splitPieces]
      · intro broken
        exact falling fun chain => broken ⟨rises,chain⟩
    · rw [if_neg (mt (ranked.gt _ _).mp rises)]
      exact ⟨fun chain => absurd chain.1 rises,fun _ => rfl⟩

theorem splitPieces_ranged (first : Range ν) {max : BSONObj ν} (below : ∀ key ∈ keys, rank key < rank max)
    (proper : rank first.1 < rank first.2) (ends : rank first.2 = rank max) (chain : Rising rank (first.1 :: keys)) :
    Ranged rank (splitPieces max first keys) ∧
    (∀ piece ∈ splitPieces max first keys, rank first.1 ≤ rank piece.1 ∧ rank piece.2 ≤ rank max) ∧
    ∀ key, Covers rank (splitPieces max first keys) key ↔ Within rank first key := by
  induction keys generalizing first with
  | nil =>
    refine ⟨ranged_cons.mpr ⟨proper,ranged_nil,by simp⟩,?_,by simp [splitPieces]⟩
    intro piece mem
    cases List.mem_singleton.mp mem
    exact ⟨le_rfl,le_of_eq ends⟩
  | cons key keys ih =>
    obtain ⟨rises,chain⟩ := List.isChain_cons_cons.mp chain
    have short := below key (.head _)
    obtain ⟨ranged,bounded,covers⟩ := ih (key,max) (List.forall_mem_cons.mp below).2 short rfl chain
    refine ⟨ranged_cons.mpr ⟨rises,ranged,fun piece mem => (bounded piece mem).1⟩,?_,?_⟩
    · intro piece mem
      cases List.mem_cons.mp mem with
      | inl same => exact same ▸ ⟨le_rfl,le_of_lt short⟩
      | inr mem => exact ⟨le_trans (le_of_lt rises) (bounded piece mem).1,(bounded piece mem).2⟩
    intro other
    have whole : Within rank first other ↔ Within rank (first.1,max) other := by
      simp [Within,ends]
    rw [splitPieces,covers_cons,covers,whole,within_joined (le_of_lt rises) (le_of_lt short)]

theorem split_replaces {max : BSONObj ν}
    (rest : Ranged rank (before++after)) (short : rank held.1 < rank held.2) (placed : Placed rank before after held)
    (starts : rank held.1 = rank startKey) (ends : rank held.2 = rank max) (below : ∀ key ∈ keys, rank key < rank max)
    (chain : Rising rank (startKey :: keys)) :
    Ranged rank (before++(splitPieces max held keys++after)) ∧
    (∀ piece ∈ splitPieces max held keys, rank held.1 ≤ rank piece.1) ∧
    ∀ key, Covers rank (splitPieces max held keys) key ↔ Within rank held key := by
  have moved : Rising rank (held.1 :: keys) := by
    cases keys with
    | nil => exact .singleton _
    | cons key keys =>
      rw [Rising,List.isChain_cons_cons] at chain ⊢
      exact ⟨starts ▸ chain.1,chain.2⟩
  obtain ⟨ranged,bounded,covers⟩ := splitPieces_ranged held below short ends moved
  obtain ⟨left,right,between⟩ := ranged_append.mp rest
  refine ⟨ranged_append.mpr ⟨left,ranged_append.mpr ⟨ranged,right,?_⟩,?_⟩,fun piece mem => (bounded piece mem).1,covers⟩
  · intro piece mem other later
    exact le_trans (bounded piece mem).2 (ends ▸ placed.high other later)
  intro other mem piece later
  cases List.mem_append.mp later with
  | inl later => exact le_trans (placed.low other mem) (bounded piece later).1
  | inr later => exact between other mem piece later

theorem cloneSplit_outcome (ranked : Ranked (woCompare bson) rank) (ranged : Ranged rank self.chunksMap)
    (proper : rank chunk.min < rank chunk.max) :
    (∃ errMsg, cloneSplit bson self chunk keys version = .refused errMsg) ∨
    ∃ before held after, self.chunksMap = before++held :: after ∧ rank held.1 = rank chunk.min ∧
      rank held.2 = rank chunk.max ∧ (∀ key ∈ keys, Within rank (chunk.min,chunk.max) key) ∧
      ((Rising rank (chunk.min :: keys) ∧ ∃ reached, cloneSplit bson self chunk keys version =
          .cloned (withChunks bson self (before++(splitPieces chunk.max held keys++after)) reached)) ∨
      (¬Rising rank (chunk.min :: keys) ∧ cloneSplit bson self chunk keys version = .aborted)) := by
  unfold cloneSplit
  split
  · exact .inl ⟨_,rfl⟩
  by_cases contained : rangeMapContains bson self.chunksMap chunk.min chunk.max = true
  · obtain ⟨before,held,after,whole,starts,ends⟩ := rangeMapContains_held ranked ranged proper contained
    rw [if_neg (by simp [contained])]
    cases search : keys.find? fun key => !rangeContains bson chunk.min chunk.max key with
    | some key => exact .inl ⟨_,rfl⟩
    | none =>
      have inside : ∀ key ∈ keys, Within rank (chunk.min,chunk.max) key := by
        intro key mem
        have kept := List.find?_eq_none.mp search key mem
        simp only [Bool.not_eq_true',Bool.not_eq_false] at kept
        exact (contains_within ranked (chunk.min,chunk.max)).mp kept
      refine .inr ⟨before,held,after,whole,starts,ends,inside,?_⟩
      rw [whole] at ranged
      obtain ⟨left,right,between⟩ := ranged_append.mp ranged
      obtain ⟨_,_,later⟩ := ranged_cons.mp right
      have low : ∀ range ∈ before, rank range.1 < rank chunk.min := fun range mem =>
        starts ▸ lt_of_lt_of_le (left.proper range mem) (between range mem held (.head _))
      obtain ⟨rising,falling⟩ := splitLoop_pieces ranked held (fun key mem => (inside key mem).2)
        (fun range mem => ends ▸ later range mem) low starts
      simp only [whole]
      by_cases chain : Rising rank (chunk.min :: keys)
      · rw [rising chain]
        exact .inl ⟨chain,_,rfl⟩
      · rw [falling chain]
        exact .inr ⟨chain,rfl⟩
  · rw [if_pos (by simp [contained])]
    exact .inl (notContained_refuses ranked ranged proper)

end

section
variable {β : Type} [LinearOrder β] {rank : BSONObj ν → β} {self : CollectionMetadata ν}

theorem noHoles_covers (ranked : Ranked (woCompare bson) rank) (proper : ∀ range ∈ first :: rest, rank range.1 < rank range.2)
    (joined : noHoles bson prevMaxKey (first :: rest) = true) :
    rank first.1 = rank prevMaxKey ∧ rank prevMaxKey < rank (rest.getLastD first).2 ∧
    ∀ key, Covers rank (first :: rest) key ↔ Within rank (prevMaxKey,(rest.getLastD first).2) key := by
  induction rest generalizing first prevMaxKey with
  | nil =>
    have starts : rank first.1 = rank prevMaxKey := by simpa [noHoles,ranked.eq] using joined
    refine ⟨starts,starts ▸ proper first (.head _),fun key => ?_⟩
    simp [Within,starts]
  | cons second rest ih =>
    rw [noHoles,Bool.and_eq_true,decide_eq_true_eq,ranked.eq] at joined
    obtain ⟨starts,joined⟩ := joined
    obtain ⟨meets,ends,covers⟩ := ih (List.forall_mem_cons.mp proper).2 joined
    have short := proper first (.head _)
    rw [starts] at short
    rw [List.getLastD_cons]
    refine ⟨starts,lt_trans short ends,fun key => ?_⟩
    rw [covers_cons,covers,within_joined (le_of_lt short) (le_of_lt ends)]
    simp [Within,starts]

theorem cloneMerge_outcome (ranked : Ranked (woCompare bson) rank) (ranged : Ranged rank self.chunksMap)
    (proper : rank minKey < rank maxKey) :
    (∃ errMsg, cloneMerge bson self minKey maxKey version = .refused errMsg) ∨
    ∃ before inside after first, self.chunksMap = before++(inside++after) ∧ Placed rank before after (minKey,maxKey) ∧
      first ∈ inside ∧ rank first.1 = rank minKey ∧
      (∀ key, Covers rank inside key ↔ Within rank (minKey,maxKey) key) ∧
      cloneMerge bson self minKey maxKey version = .cloned
        { self with
          chunksMap := before++(minKey,maxKey) :: after
          shardVersion := version
          collVersion := laterVersion version self.collVersion } := by
  obtain ⟨before,inside,after,found⟩ := exists_overlap ranked ranged proper
  unfold cloneMerge
  simp only [getRangeMapOverlap_inside found]
  split
  · exact .inl ⟨_,rfl⟩
  split
  · rename_i missing
    cases missing
  · exact .inl ⟨_,rfl⟩
  · exact .inl ⟨_,rfl⟩
  rename_i first second rest shape
  cases shape
  split
  · exact .inl ⟨_,rfl⟩
  rename_i valid
  obtain ⟨_,last⟩ := not_not.mp valid
  split
  · exact .inl ⟨_,rfl⟩
  rename_i joined
  have kept := found.whole ▸ ranged
  obtain ⟨left,right,_⟩ := ranged_append.mp kept
  obtain ⟨middle,_,_⟩ := ranged_append.mp right
  obtain ⟨starts,_,covers⟩ := noHoles_covers ranked middle.proper (by simpa using joined)
  rw [List.getLastD_cons] at covers
  have ends := (ranked.eq _ _).mp last
  refine .inr ⟨before,_,after,first,found.whole,found.placed,.head _,starts,fun key => ?_,?_⟩
  · rw [covers]
    simp only [Within,ends]
  · rw [found.whole,erase_all ranked kept,placed_insert ranked found.placed proper left]

end

theorem splitPieces_zip {min max : BSONObj ν} : splitPieces max (min,max) keys = (min :: keys).zip (keys++[max]) := by
  induction keys generalizing min with
  | nil => rfl
  | cons key keys ih =>
    rw [splitPieces,ih]
    rfl

theorem held_place [LinearOrder β] {rank : BSONObj ν → β}
    (ranged : Ranged rank (before++held :: after)) (mem : range ∈ before++held :: after)
    (starts : rank held.1 = rank range.1) : range = held := by
  obtain ⟨rest,proper,placed⟩ := ranged_middle.mp ranged
  obtain ⟨left,_,_⟩ := ranged_append.mp rest
  rcases List.mem_append.mp mem with mem | mem
  · have below := lt_of_lt_of_le (left.proper range mem) (placed.low range mem)
    exact absurd below (starts ▸ lt_irrefl _)
  rcases List.mem_cons.mp mem with same | mem
  · exact same
  · have above := lt_of_lt_of_le proper (placed.high range mem)
    exact absurd above (starts ▸ lt_irrefl _)

theorem split_replaces_chunk {keys : Keys ν} (order : TotalPreorder keys.bson.elementCompare) {self : CollectionMetadata ν}
    (disjoint : Disjoint keys.bson self.chunksMap) {chunk : ChunkType ν} (held : (chunk.min,chunk.max) ∈ self.chunksMap)
    {splitKeys : List (BSONObj ν)} {newShardVersion : ChunkVersion}
    (allowed : newShardVersion.combined ≤ self.shardVersion.combined ∨
      (∃ key ∈ splitKeys, rangeContains keys.bson chunk.min chunk.max key = false) ∨
      (chunk.min :: splitKeys).IsChain fun a b => woCompare keys.bson a b < 0) :
    (∃ errMsg, cloneSplit keys.bson self chunk splitKeys newShardVersion = .refused errMsg) ∨
    ∃ before after next, self.chunksMap = before++(chunk.min,chunk.max) :: after ∧
      cloneSplit keys.bson self chunk splitKeys newShardVersion = .cloned next ∧
      next.chunksMap = before++((chunk.min :: splitKeys).zip (splitKeys++[chunk.max])++after) ∧
      ∀ piece ∈ (chunk.min :: splitKeys).zip (splitKeys++[chunk.max]), woCompare keys.bson piece.1 piece.2 < 0 := by
  obtain ⟨β,_,rank,ranked⟩ := exists_rank (woCompare_preorder order)
  have ranged := (disjoint_iff ranked).mp disjoint
  have proper := ranged.proper _ held
  rcases cloneSplit_outcome ranked ranged proper with
    refused | ⟨before,other,after,whole,starts,ends,inside,⟨chain,reached,cloned⟩ | ⟨broken,aborted⟩⟩
  · exact .inl refused
  · rw [whole] at held ranged
    obtain rfl := held_place ranged held starts
    obtain ⟨rest,short,placed⟩ := ranged_middle.mp ranged
    obtain ⟨larger,_,_⟩ := split_replaces rest short placed starts ends (fun key member => (inside key member).2) chain
    rw [splitPieces_zip] at cloned larger
    refine .inr ⟨before,after,_,whole,cloned,(withChunks_fields keys.bson self).2.2.1,?_⟩
    intro piece member
    exact (ranked.lt _ _).mpr (larger.proper piece (List.mem_append_right _ (List.mem_append_left _ member)))
  · left
    rcases allowed with old | ⟨key,member,outside⟩ | chain
    · rw [cloneSplit,if_pos old]
      exact ⟨_,rfl⟩
    · have within := (contains_within ranked (chunk.min,chunk.max)).mpr (inside key member)
      rw [outside] at within
      cases within
    · simp only [ranked.lt] at chain
      exact absurd chain broken

def Shares (bson : Bson ν) (lower upper : BSONObj ν) (range : Range ν) : Prop :=
  ∃ key, rangeContains bson range.1 range.2 key = true ∧ rangeContains bson lower upper key = true

theorem range_maps_exact {keys : Keys ν} (order : TotalPreorder keys.bson.elementCompare) (disjoint : Disjoint keys.bson ranges)
    (proper : woCompare keys.bson lower upper < 0) :
    ∃ overlap, getRangeMapOverlap keys.bson ranges lower upper = some overlap ∧ overlap.Sublist ranges ∧
      (∀ range ∈ ranges, range ∈ overlap ↔ Shares keys.bson lower upper range) ∧
      (rangeMapOverlaps keys.bson ranges lower upper = true ↔ overlap ≠ []) ∧
      (rangeMapContains keys.bson ranges lower upper = true ↔
        ∃ range ∈ ranges, woCompare keys.bson range.1 lower = 0 ∧ woCompare keys.bson range.2 upper = 0) := by
  obtain ⟨β,_,rank,ranked⟩ := exists_rank (woCompare_preorder order)
  have ranged := (disjoint_iff ranked).mp disjoint
  have less := (ranked.lt _ _).mp proper
  obtain ⟨before,inside,after,found⟩ := exists_overlap ranked ranged less
  have below : ∀ range ∈ ranges, rank lower < rank range.2 → rank range.1 < rank upper → range ∈ inside := by
    intro range member low high
    simp only [found.whole,List.mem_append] at member
    rcases member with early | here | late
    · exact absurd low (not_lt.mpr (found.low range early))
    · exact here
    · exact absurd high (not_lt.mpr (found.high range late).2)
  refine ⟨inside,getRangeMapOverlap_inside found,?_,fun range member => ⟨fun here => ?_,?_⟩,rangeMapOverlaps_iff found,
    fun contained => ?_,?_⟩
  · rw [found.whole]
    exact (List.sublist_append_left inside after).trans (List.sublist_append_right before _)
  · -- the larger of the two starts lies in both ranges
    simp only [Shares,contains_within ranked range,contains_within ranked (lower,upper)]
    obtain ⟨low,high⟩ := found.middle range here
    cases le_total (rank range.1) (rank lower) with
    | inl start => exact ⟨lower,⟨start,low⟩,le_rfl,less⟩
    | inr start => exact ⟨range.1,⟨le_rfl,ranged.proper range member⟩,start,high⟩
  · simp only [Shares,contains_within ranked range,contains_within ranked (lower,upper)]
    rintro ⟨key,⟨start,low⟩,above,high⟩
    exact below range member (lt_of_le_of_lt above low) (lt_of_le_of_lt start high)
  · obtain ⟨earlier,held,later,whole,starts,ends⟩ := rangeMapContains_held ranked ranged less contained
    exact ⟨held,by simp [whole],(ranked.eq _ _).mpr starts,(ranked.eq _ _).mpr ends⟩
  · rintro ⟨range,member,starts,ends⟩
    rw [ranked.eq] at starts ends
    have here := below range member (ends ▸ less) (starts ▸ less)
    obtain ⟨first,rest,rfl⟩ := List.exists_cons_of_ne_nil (List.ne_nil_of_mem here)
    have same : range = first := by
      refine (List.mem_cons.mp here).resolve_right fun later => ?_
      have apart := (ranged_cons.mp (ranged_append.mp (found.whole ▸ ranged)).2.1).2.2 range (List.mem_append_left _ later)
      exact absurd (found.middle first (.head _)).1 (not_lt.mpr (starts ▸ apart))
    simp only [rangeMapContains,found.bounds]
    simp [found.whole,← same,ranked.eq,starts,ends]

def sampleBson : Bson Int := Keys.bson ⟨sampleValues,-100,100,rfl,rfl,fun _ => ""⟩

theorem sampleBson_order : TotalPreorder sampleBson.elementCompare :=
  (elements_ordered sample_ranks).comap fun element : Element Int => (element.fieldName,element.value)

def mixedBson : Bson Mixed := Keys.bson ⟨mixedValues,.least,.greatest,rfl,rfl,fun _ => ""⟩

def mixedKey (value : Mixed) : BSONObj Mixed := [⟨"a",value⟩]

def longKey (value : Int) : BSONObj Mixed := mixedKey (.long (BitVec.ofInt 64 value))

def sampleKey (value : Int) : BSONObj Int := [⟨"a",value⟩]

def sampleVersion (major : BitVec 32) : ChunkVersion := ⟨0,major,7⟩

def splitSample (chunks : RangeMap Int) : CollectionMetadata Int where
  collVersion := sampleVersion 1
  shardVersion := sampleVersion 1
  keyPattern := sampleKey 1
  pendingMap := []
  chunksMap := chunks
  rangesMap := []

theorem single_disjoint : Disjoint sampleBson (splitSample [(sampleKey 0,sampleKey 10)]).chunksMap := by
  exact ⟨.cons (by simp) .nil,by decide,.cons (by simp) .nil⟩

theorem range_maps_exact_single : ∃ overlap,
    getRangeMapOverlap sampleBson [(sampleKey 0,sampleKey 10)] (sampleKey 5) (sampleKey 20) = some overlap := by
  obtain ⟨overlap,returned,_⟩ := range_maps_exact sampleBson_order single_disjoint
    (show woCompare sampleBson (sampleKey 5) (sampleKey 20) < 0 by decide)
  exact ⟨overlap,returned⟩

-- The end 2^53+1 of the stored range equals the double 2^53, and so does the long 2^53 in both ranges.
theorem shared_key_missed : Disjoint mixedBson [(longKey (2^53-1),longKey (2^53+1))] ∧
    woCompare mixedBson (mixedKey double53) (longKey (2^53+2)) < 0 ∧
    getRangeMapOverlap mixedBson [(longKey (2^53-1),longKey (2^53+1))] (mixedKey double53) (longKey (2^53+2)) = some [] ∧
    Shares mixedBson (mixedKey double53) (longKey (2^53+2)) (longKey (2^53-1),longKey (2^53+1)) := by
  refine ⟨⟨.cons (by simp) .nil,by decide +kernel,.cons (by simp) .nil⟩,by decide +kernel,by decide +kernel,longKey (2^53),?_⟩
  decide +kernel

theorem split_replaces_chunk_sample :
    (∃ errMsg, cloneSplit sampleBson (splitSample [(sampleKey 0,sampleKey 10)]) ⟨sampleKey 0,sampleKey 10⟩
      [sampleKey 3,sampleKey 6] (sampleVersion 2) = .refused errMsg) ∨
    ∃ before after next, (splitSample [(sampleKey 0,sampleKey 10)]).chunksMap = before++(sampleKey 0,sampleKey 10) :: after ∧
      cloneSplit sampleBson (splitSample [(sampleKey 0,sampleKey 10)]) ⟨sampleKey 0,sampleKey 10⟩
        [sampleKey 3,sampleKey 6] (sampleVersion 2) = .cloned next ∧
      next.chunksMap = before++([(sampleKey 0,sampleKey 3),(sampleKey 3,sampleKey 6),(sampleKey 6,sampleKey 10)]++after) ∧
      ∀ piece ∈ [(sampleKey 0,sampleKey 3),(sampleKey 3,sampleKey 6),(sampleKey 6,sampleKey 10)],
        woCompare sampleBson piece.1 piece.2 < 0 :=
  split_replaces_chunk sampleBson_order single_disjoint (by decide) (.inr (.inr (by decide)))

-- Keys not sorted, the minimum of the chunk, a key twice, ranges that overlap, and values of which one comparison
-- throws.
theorem split_fails : cloneSplit sampleBson (splitSample [(sampleKey 0,sampleKey 10)]) ⟨sampleKey 0,sampleKey 10⟩
      [sampleKey 6,sampleKey 3] (sampleVersion 2) = .aborted ∧
    cloneSplit sampleBson (splitSample [(sampleKey 0,sampleKey 10)]) ⟨sampleKey 0,sampleKey 10⟩
      [sampleKey 0] (sampleVersion 2) = .aborted ∧
    cloneSplit sampleBson (splitSample [(sampleKey 0,sampleKey 10)]) ⟨sampleKey 0,sampleKey 10⟩
      [sampleKey 3,sampleKey 3] (sampleVersion 2) = .aborted ∧
    ∃ next, cloneSplit sampleBson (splitSample [(sampleKey 0,sampleKey 10),(sampleKey 5,sampleKey 7)])
        ⟨sampleKey 0,sampleKey 10⟩ [sampleKey 5] (sampleVersion 2) = .cloned next ∧
      next.chunksMap = [(sampleKey 0,sampleKey 5),(sampleKey 5,sampleKey 7)] ∧
    compareElementValues (.timestamp 5) (.date (-1)) = some (-1) ∧ compareElementValues (.date (-1)) (.timestamp 5) = none := by
  refine ⟨by decide,by decide,by decide,_,rfl,by decide,?_⟩
  decide +kernel

end Mongo.Metadata
