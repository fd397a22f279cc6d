import Mathlib.Data.Prod.Lex
import SipxExternals.FoundationsTransfers
import SipxExternals.MongoBalancerMoves
import SipxExternals.MongoChunkClones

namespace Mongo.Balancer
open Metadata (BSONObj Bson woCompare sampleBson sampleKey)
open DistributionStatus Foundations.Transfers List

-- The chunk has changed its shard and nothing else has changed, apart from the order in
-- which the chunks of a shard are listed.
structure Performs (distribution next : DistributionStatus ν) (move : MigrateInfo ν) (chunk : ChunkType ν) : Prop where
  infos : next.shardInfo = distribution.shardInfo
  ranges : next.tagRanges = distribution.tagRanges
  tags : next.allTags = distribution.allTags
  least : move.min = chunk.min
  bound : move.max = chunk.max
  left : (distribution.chunksIn move.fromShard).Perm (chunk :: next.chunksIn move.fromShard)
  arrived : (next.chunksIn move.toShard).Perm (chunk :: distribution.chunksIn move.toShard)
  others : ∀ shard ∈ distribution.shards, shard ≠ move.fromShard → shard ≠ move.toShard →
    (next.chunksIn shard).Perm (distribution.chunksIn shard)

section
variable (bson : Bson ν) (distribution : DistributionStatus ν)

def chunksThat (bad : ShardInfo → ChunkType ν → Bool) : Nat :=
  (distribution.shardInfo.map fun entry => (distribution.chunksIn entry.1).countP (bad entry.2)).sum

def drainingChunks : Nat := chunksThat distribution fun info _ => info.draining

def misplacedChunks : Nat := chunksThat distribution fun info chunk => !info.hasTag (distribution.getTagForChunk bson chunk)

-- The sum of squares is least where the chunks of a tag are spread evenly.
def unevenness (tag : String) : Nat :=
  (distribution.shardInfo.map fun entry => distribution.numberOfChunksInShardWithTag bson entry.1 tag^2).sum

def distance (tags : List String) : ℕ ×ₗ ℕ ×ₗ ℕ :=
  toLex (drainingChunks distribution,toLex (misplacedChunks bson distribution,(tags.map (unevenness bson distribution)).sum))

end

section
variable {bson : Bson ν} {distribution next : DistributionStatus ν}

theorem tag_of_least (ranges : next.tagRanges = distribution.tagRanges) (least : chunk.min = other.min) :
    next.getTagForChunk bson chunk = distribution.getTagForChunk bson other := by
  unfold getTagForChunk
  rw [ranges,least]

theorem infos_nodup : distribution.shardInfo.Nodup := List.Nodup.of_map _ distribution.names

section
variable (performs : Performs distribution next move moved) (moves : Moves bson distribution move chunk donor receiver)
include performs moves

theorem performs_transfer (weigh : ShardInfo → List (ChunkType ν) → Nat)
    (perm : ∀ info (chunks other : List (ChunkType ν)), chunks.Perm other → weigh info chunks = weigh info other) :
    Transfer distribution.shardInfo (fun entry => weigh entry.2 (distribution.chunksIn entry.1))
      (fun entry => weigh entry.2 (next.chunksIn entry.1)) (move.fromShard,donor) (move.toShard,receiver) := by
  refine ⟨infos_nodup,moves.gives,moves.takes,?_,?_⟩
  · intro same
    exact moves.different (congrArg Prod.fst same).symm
  intro entry mem first second
  refine perm entry.2 _ _ (performs.others entry.1 (mem_map_of_mem mem) ?_ ?_)
  · intro same
    have gives : (entry.1,donor) ∈ distribution.shardInfo := same ▸ moves.gives
    exact first (Prod.ext same (info_unique mem gives))
  · intro same
    have takes : (entry.1,receiver) ∈ distribution.shardInfo := same ▸ moves.takes
    exact second (Prod.ext same (info_unique mem takes))

theorem chunksThat_moved (bad : ShardInfo → ChunkType ν → Bool) :
    chunksThat next bad+(if bad donor moved then 1 else 0) =
      chunksThat distribution bad+(if bad receiver moved then 1 else 0) := by
  have left := performs.left.countP_eq (bad donor)
  have arrived := performs.arrived.countP_eq (bad receiver)
  have sum := transfer_sum (performs_transfer performs moves (fun info => countP (bad info))
    fun info _ _ same => same.countP_eq (bad info))
  rw [countP_cons] at left arrived
  unfold chunksThat
  rw [performs.infos]
  simp only at sum
  omega

theorem drainingChunks_moved : drainingChunks next+(if donor.draining then 1 else 0) = drainingChunks distribution := by
  have sum := chunksThat_moved performs moves fun info _ => info.draining
  simpa [moves.receives.staying,drainingChunks] using sum

end

theorem tags_same (performs : Performs distribution next move moved) :
    next.getTagForChunk bson = distribution.getTagForChunk bson := by
  funext chunk
  exact tag_of_least performs.ranges rfl

section
variable (performs : Performs distribution next move moved) (moves : Moves bson distribution move chunk donor receiver)
include performs moves

theorem tag_moved : distribution.getTagForChunk bson moved = distribution.getTagForChunk bson chunk :=
  tag_of_least rfl (performs.least.symm.trans moves.least)

theorem misplacedChunks_moved :
    misplacedChunks bson next+(if donor.hasTag (distribution.getTagForChunk bson chunk) = false then 1 else 0) =
      misplacedChunks bson distribution := by
  have sum := chunksThat_moved performs moves fun info chunk => !info.hasTag (distribution.getTagForChunk bson chunk)
  simpa [tag_moved performs moves,moves.receives.tagged,misplacedChunks,tags_same performs] using sum

theorem counts_moved :
    next.numberOfChunksInShardWithTag bson move.fromShard tag+(if tag = distribution.getTagForChunk bson chunk then 1 else 0) =
        distribution.numberOfChunksInShardWithTag bson move.fromShard tag ∧
      next.numberOfChunksInShardWithTag bson move.toShard tag =
        distribution.numberOfChunksInShardWithTag bson move.toShard tag+
          (if tag = distribution.getTagForChunk bson chunk then 1 else 0) := by
  have left := performs.left.countP_eq fun chunk => tag == distribution.getTagForChunk bson chunk
  have arrived := performs.arrived.countP_eq fun chunk => tag == distribution.getTagForChunk bson chunk
  simp only [countP_cons,tag_moved performs moves,beq_iff_eq] at left arrived
  simp only [numberOfChunksInShardWithTag,tags_same performs]
  exact ⟨left.symm,arrived⟩

theorem unevenness_moved (tag : String) : unevenness bson next tag+
        (distribution.numberOfChunksInShardWithTag bson move.fromShard tag^2+
          distribution.numberOfChunksInShardWithTag bson move.toShard tag^2) =
      unevenness bson distribution tag+ (next.numberOfChunksInShardWithTag bson move.fromShard tag^2+
          next.numberOfChunksInShardWithTag bson move.toShard tag^2) := by
  have sum := transfer_sum (performs_transfer performs moves
    (fun _ chunks => (chunks.countP fun chunk => tag == distribution.getTagForChunk bson chunk)^2)
    fun _ _ _ same => congrArg (·^2) (same.countP_eq _))
  simpa [unevenness,numberOfChunksInShardWithTag,tags_same performs,performs.infos] using sum

theorem unevenness_same (other : tag ≠ distribution.getTagForChunk bson chunk) :
    unevenness bson next tag = unevenness bson distribution tag := by
  obtain ⟨left,arrived⟩ := counts_moved performs moves
  have sum := unevenness_moved performs moves tag
  rw [if_neg other] at left arrived
  rw [← left,arrived] at sum
  exact Nat.add_right_cancel sum

theorem unevenness_less
    (gap : distribution.numberOfChunksInShardWithTag bson move.toShard (distribution.getTagForChunk bson chunk)+2 ≤
      distribution.numberOfChunksInShardWithTag bson move.fromShard (distribution.getTagForChunk bson chunk)) :
    unevenness bson next (distribution.getTagForChunk bson chunk) <
      unevenness bson distribution (distribution.getTagForChunk bson chunk) := by
  obtain ⟨left,arrived⟩ := counts_moved performs moves
  have sum := unevenness_moved performs moves (distribution.getTagForChunk bson chunk)
  have less := squares_less gap
  rw [if_pos rfl] at left arrived
  rw [← left,Nat.add_sub_cancel,left,← arrived] at less
  omega

theorem distance_falls (helps : Helps bson distribution tags move chunk donor) :
    distance bson next tags < distance bson distribution tags := by
  have drained := drainingChunks_moved performs moves
  have placed := misplacedChunks_moved performs moves
  simp only [distance,Prod.Lex.toLex_lt_toLex]
  cases helps with
  | drains draining =>
    rw [if_pos draining] at drained
    omega
  | violates untagged =>
    rw [if_pos untagged] at placed
    rcases lt_or_ge (drainingChunks next) (drainingChunks distribution) with less | same
    · exact .inl less
    · exact .inr ⟨by omega,.inl (by omega)⟩
  | evens inside gap =>
    have evened : (tags.map (unevenness bson next)).sum < (tags.map (unevenness bson distribution)).sum := by
      refine sum_lt_sum _ _ ?_ ⟨_,inside,unevenness_less performs moves gap⟩
      intro tag _
      by_cases same : tag = distribution.getTagForChunk bson chunk
      · subst same
        exact (unevenness_less performs moves gap).le
      · exact (unevenness_same performs moves same).le
    rcases lt_or_ge (drainingChunks next) (drainingChunks distribution) with less | same
    · exact .inl less
    refine .inr ⟨by omega,?_⟩
    rcases lt_or_ge (misplacedChunks bson next) (misplacedChunks bson distribution) with less | same
    · exact .inl less
    · exact .inr ⟨by omega,evened⟩

end

end

-- Rounds of the balancer with the attributes fixed: any order of the tags, any
-- balancedLastTime, and every migration that is returned is performed.
structure Rounds (bson : Bson ν) (ns : String) (distributions : Nat → DistributionStatus ν) (times : Nat → Int)
    (orders : Nat → List String) : Prop where
  shuffled : ∀ n, (orders n).Perm ((distributions n).allTags++[""])
  performed : ∀ n move, balance bson ns (distributions n) (times n) (orders n) = .ok (some move) →
    ∃ chunk, Performs (distributions n) (distributions (n+1)) move chunk

section
variable {bson : Bson ν} {distributions : Nat → DistributionStatus ν}

theorem round_falls (rounds : Rounds bson ns distributions times orders) (fixed : (distributions n).allTags = tags) :
    balance bson ns (distributions n) (times n) (orders n) = .ok none ∨ (distributions (n+1)).allTags = tags ∧
        distance bson (distributions (n+1)) (tags++[""]) < distance bson (distributions n) (tags++[""]) := by
  subst fixed
  have answers : Answers bson (distributions n) ((distributions n).allTags++[""])
      (balance bson ns (distributions n) (times n) (orders n)) :=
    balance_answers fun tag mem => (rounds.shuffled n).mem_iff.mp mem
  obtain ⟨found,answer,good⟩ := answers
  cases found with
  | none => exact .inl answer
  | some move =>
    right
    obtain ⟨moved,performs⟩ := rounds.performed n move answer
    obtain ⟨chunk,donor,receiver,moves,helps⟩ := good move rfl
    exact ⟨performs.tags,distance_falls performs moves helps⟩

theorem rounds_end (rounds : Rounds bson ns distributions times orders) :
    ∃ n, balance bson ns (distributions n) (times n) (orders n) = .ok none := by
  by_contra never
  have going : ∀ n, ¬balance bson ns (distributions n) (times n) (orders n) = .ok none := fun n stop => never ⟨n,stop⟩
  have fixed : ∀ n, (distributions n).allTags = (distributions 0).allTags := by
    intro n
    induction n with
    | zero => rfl
    | succ n ih => exact ((round_falls rounds ih).resolve_left (going n)).1
  obtain ⟨_,stop⟩ := descent_ends (fun n => distance bson (distributions n) ((distributions 0).allTags++[""]))
    fun n => .inr ((round_falls rounds (fixed n)).resolve_left (going n)).2
  exact stop

end

section
variable [DecidableEq ν]

def MigrateInfo.names (move : MigrateInfo ν) (chunk : ChunkType ν) : Bool :=
  decide (chunk.min = move.min ∧ chunk.max = move.max)

def moveChunk (move : MigrateInfo ν) (chunk : ChunkType ν) (entry : String × List (ChunkType ν)) :
    String × List (ChunkType ν) :=
  if entry.1 = move.fromShard then (entry.1,entry.2.erase chunk)
  else if entry.1 = move.toShard then (entry.1,entry.2++[chunk])
  else entry

theorem moveChunk_name {move : MigrateInfo ν} : (moveChunk move chunk entry).1 = entry.1 := by
  unfold moveChunk
  split
  · rfl
  · split <;> rfl

theorem moveChunk_names {entries : List (String × List (ChunkType ν))} :
    (entries.map (moveChunk move chunk)).map Prod.fst = entries.map Prod.fst := by
  rw [map_map]
  exact map_congr_left fun entry _ => moveChunk_name

def relocate (distribution : DistributionStatus ν) (move : MigrateInfo ν) (chunk : ChunkType ν) : DistributionStatus ν :=
  { distribution with
    shardChunks := distribution.shardChunks.map (moveChunk move chunk)
    listed := by
      rw [moveChunk_names]
      exact distribution.listed }

def perform (distribution : DistributionStatus ν) (move : MigrateInfo ν) : DistributionStatus ν :=
  match (distribution.chunksIn move.fromShard).find? move.names with
  | none => distribution
  | some chunk => relocate distribution move chunk

theorem relocate_chunks {distribution : DistributionStatus ν} (mem : shard ∈ distribution.shards) :
    (relocate distribution move chunk).chunksIn shard =
      (moveChunk move chunk (shard,distribution.chunksIn shard)).2 := by
  have names : ((fun entry : String × List (ChunkType ν) => entry.1 == shard) ∘ moveChunk move chunk) =
      fun entry => entry.1 == shard := by
    funext entry
    simp [Function.comp_apply,moveChunk_name]
  obtain ⟨entry,inside,equal⟩ := mem_map.mp (distribution.listed shard mem)
  simp only [chunksIn,relocate,find?_map,names]
  cases found : distribution.shardChunks.find? (fun entry => entry.1 == shard) with
  | none => exact absurd equal (by simpa using find?_eq_none.mp found entry inside)
  | some entry =>
    have name : entry.1 = shard := by simpa using find?_some found
    subst name
    rfl

theorem perform_performs {distribution : DistributionStatus ν} (moves : Moves bson distribution move chunk donor receiver) :
    ∃ moved, Performs distribution (perform distribution move) move moved := by
  have gives : move.fromShard ∈ distribution.shards := mem_map_of_mem moves.gives
  have takes : move.toShard ∈ distribution.shards := mem_map_of_mem moves.takes
  cases found : (distribution.chunksIn move.fromShard).find? move.names with
  | none =>
    have unnamed := find?_eq_none.mp found chunk moves.held
    simp [MigrateInfo.names,moves.least,moves.bound] at unnamed
  | some moved =>
    have named : moved.min = move.min ∧ moved.max = move.max := by
      simpa [MigrateInfo.names] using find?_some found
    refine ⟨moved,?_⟩
    simp only [perform,found]
    refine ⟨rfl,rfl,rfl,named.1.symm,named.2.symm,?_,?_,?_⟩
    · rw [relocate_chunks gives]
      simpa [moveChunk] using perm_cons_erase (mem_of_find?_eq_some found)
    · rw [relocate_chunks takes]
      simp [moveChunk,moves.different]
    · intro shard mem first second
      rw [relocate_chunks mem]
      simp [moveChunk,first,second]

def afterRounds (bson : Bson ν) (ns : String) (start : DistributionStatus ν) : Nat → DistributionStatus ν
  | 0 => start
  | n+1 =>
    match balance bson ns (afterRounds bson ns start n) 0 ((afterRounds bson ns start n).allTags++[""]) with
    | .ok (some move) => perform (afterRounds bson ns start n) move
    | _ => afterRounds bson ns start n

theorem afterRounds_rounds {bson : Bson ν} :
    Rounds bson ns (afterRounds bson ns start) (fun _ => 0) (fun n => (afterRounds bson ns start n).allTags++[""]) := by
  refine ⟨fun _ => .refl _,?_⟩
  intro n move answer
  have answers : Answers bson (afterRounds bson ns start n) ((afterRounds bson ns start n).allTags++[""])
      (balance bson ns (afterRounds bson ns start n) 0 ((afterRounds bson ns start n).allTags++[""])) :=
    balance_answers fun _ mem => mem
  obtain ⟨found,same,good⟩ := answers
  cases same.symm.trans answer
  obtain ⟨chunk,donor,receiver,moves,_⟩ := good move rfl
  simp only [afterRounds,answer]
  exact perform_performs moves

end

def crowdedInfo : List (String × ShardInfo) :=
  [("a",⟨0,0,true,false,[]⟩),("b",⟨0,0,false,false,["cold"]⟩),("c",⟨0,0,false,false,[]⟩)]

def crowdedChunks : List (String × List (ChunkType Int)) :=
  [("a",[⟨sampleKey 0,sampleKey 1,none⟩]),
   ("b",[⟨sampleKey 1,sampleKey 2,none⟩,⟨sampleKey 2,sampleKey 3,none⟩,⟨sampleKey 3,sampleKey 4,none⟩]),
   ("c",[⟨sampleKey 4,sampleKey 5,some false⟩])]

theorem crowdedInfo_names : (crowdedInfo.map Prod.fst).Nodup := by decide

theorem crowdedInfo_listed : ∀ shard ∈ crowdedInfo.map Prod.fst, shard ∈ crowdedChunks.map Prod.fst := by decide

def crowded : DistributionStatus Int :=
  ⟨crowdedInfo,crowdedChunks,[(sampleKey 5,⟨sampleKey 4,sampleKey 5,"cold"⟩)],["cold"],crowdedInfo_names,crowdedInfo_listed⟩

theorem balance_none_even {distribution : DistributionStatus ν}
    (quiet : balance bson ns distribution balancedLastTime (before++tag :: rest) = .ok none)
    (passed : ∀ earlier ∈ before, distribution.getMostOverloadedShard bson earlier = "" ∨ distribution.getBestReceieverShard earlier ≠ "")
    (donor : distribution.getMostOverloadedShard bson tag ≠ "") (receiver : distribution.getBestReceieverShard tag ≠ "")
    (movable : ∃ chunk ∈ distribution.chunksIn (distribution.getMostOverloadedShard bson tag),
      distribution.getTagForChunk bson chunk = tag ∧ chunk.isJumbo = false) :
    (distribution.numberOfChunksInShardWithTag bson (distribution.getMostOverloadedShard bson tag) tag : Int)-
        distribution.numberOfChunksInShardWithTag bson (distribution.getBestReceieverShard tag) tag <
      getThreshold distribution balancedLastTime := by
  have here : balanceTags bson ns distribution (getThreshold distribution balancedLastTime) (tag :: rest) = .ok none := by
    refine balanceTags_passed passed ?_
    simp only [balance] at quiet
    grind
  by_contra high
  have low : 2 ≤ getThreshold distribution balancedLastTime := threshold_two
  obtain ⟨_,gives⟩ := donor_listed donor
  obtain ⟨chunk,held,tagged,movable⟩ := movable
  simp only [balanceTags,donor,receiver,high,if_false,getChunks_listed gives] at here
  rw [if_neg (by omega)] at here
  have found : ∃ first, ((distribution.chunksIn (distribution.getMostOverloadedShard bson tag)).filter fun chunk =>
      distribution.getTagForChunk bson chunk == tag).find? (fun chunk => !chunk.isJumbo) = some first :=
    Option.isSome_iff_exists.mp (find?_isSome.mpr ⟨chunk,mem_filter.mpr ⟨held,by simpa using tagged⟩,by simpa using movable⟩)
  obtain ⟨first,found⟩ := found
  simp [found] at here

def stuckInfo : List (String × ShardInfo) :=
  [("a",⟨0,0,false,false,[]⟩),("b",⟨0,0,false,false,[]⟩),("c",⟨1,1,false,false,["cold"]⟩)]

-- The only shard with the tag "cold" is full.
def stuck : DistributionStatus Int :=
  { crowded with shardInfo := stuckInfo, names := by decide, listed := by decide }

theorem stuck_hides_others : balance sampleBson "db.c" stuck 0 ["cold",""] = .ok none ∧
    balance sampleBson "db.c" stuck 0 ["","cold"] = .ok (some ⟨"db.c","a","b",sampleKey 1,sampleKey 2⟩) ∧
    stuck.numberOfChunksInShardWithTag sampleBson "b" "" = 3 ∧ stuck.numberOfChunksInShardWithTag sampleBson "a" "" = 1 ∧
    getThreshold stuck 0 = 2 := by
  decide +kernel

def paired : DistributionStatus Int :=
  ⟨[("a",⟨0,0,false,false,[]⟩),("b",⟨0,0,false,false,[]⟩)],
    [("a",[⟨sampleKey 0,sampleKey 1,none⟩]),("b",[⟨sampleKey 1,sampleKey 2,none⟩,⟨sampleKey 2,sampleKey 3,none⟩])],[],[],
    by decide,by decide⟩

theorem paired_even : paired.getMostOverloadedShard sampleBson "" = "b" ∧ paired.getBestReceieverShard "" = "a" ∧
    (paired.numberOfChunksInShardWithTag sampleBson (paired.getMostOverloadedShard sampleBson "") "" : Int)-
      paired.numberOfChunksInShardWithTag sampleBson (paired.getBestReceieverShard "") "" < getThreshold paired 0 :=
  ⟨by decide +kernel,by decide +kernel,
    balance_none_even (show balance sampleBson "db.c" paired 0 ([] ++ "" :: []) = .ok none by decide +kernel) (by simp)
      (by decide +kernel) (by decide +kernel) (by decide +kernel)⟩

end Mongo.Balancer
