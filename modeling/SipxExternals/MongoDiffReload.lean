import Mathlib.Logic.Relation
import SipxExternals.MongoDiffDisjoint

namespace Mongo.ChunkDiff
open Foundations.Segments Foundations.Ranges Foundations.SortedMap
open Metadata (BSONObj Bson woCompare ChunkVersion sampleBson sampleBson_order sampleKey sampleVersion)
open List (mem_append mem_filter mem_map mem_map_of_mem)

section
variable {ν : Type} (bson : Bson ν)

def Chain : BSONObj ν → List (Chunk ν) → BSONObj ν → Prop
  | low,[],high => woCompare bson low high = 0
  | low,chunk :: rest,high =>
    woCompare bson low chunk.min = 0 ∧ woCompare bson chunk.min chunk.max < 0 ∧ Chain chunk.max rest high

instance decidableChain : (low : BSONObj ν) → (chunks : List (Chunk ν)) → (high : BSONObj ν) →
    Decidable (Chain bson low chunks high)
  | low,[],high => inferInstanceAs (Decidable (woCompare bson low high = 0))
  | low,chunk :: rest,high =>
    have _ := decidableChain chunk.max rest high
    inferInstanceAs (Decidable (woCompare bson low chunk.min = 0 ∧ woCompare bson chunk.min chunk.max < 0 ∧
      Chain bson chunk.max rest high))

-- The version 0|0 is that of a dropped collection.
structure Sharded (epoch : BitVec 96) (low high : BSONObj ν) (chunks : List (Chunk ν)) : Prop where
  covers : Chain bson low chunks high
  set : ∀ chunk ∈ chunks, chunk.lastmod.isSet = true
  epochs : ∀ chunk ∈ chunks, chunk.lastmod.epoch = epoch

-- A split, a merge or a migration: adjacent chunks are replaced by others that cover
-- the same keys, with higher versions.
inductive Change (epoch : BitVec 96) : List (Chunk ν) → List (Chunk ν) → Prop where
  | replaced {run renewed before behind : List (Chunk ν)} {start stop : BSONObj ν} : run ≠ [] → renewed ≠ [] →
      Chain bson start run stop → Chain bson start renewed stop →
      (∀ new ∈ renewed, new.lastmod.epoch = epoch ∧
        ∀ chunk ∈ before++(run++behind), chunk.lastmod.combined < new.lastmod.combined) →
      Change epoch (before++(run++behind)) (before++(renewed++behind))

def Evolves (epoch : BitVec 96) : List (Chunk ν) → List (Chunk ν) → Prop :=
  Relation.ReflTransGen (Change bson epoch)

def Newest (chunks : List (Chunk ν)) (version : ChunkVersion) : Prop :=
  (∃ chunk ∈ chunks, chunk.lastmod = version) ∧ ∀ chunk ∈ chunks, chunk.lastmod.combined ≤ version.combined

variable {bson} {κ : Type} [LinearOrder κ] {rank : BSONObj ν → κ}

def Links (rank : BSONObj ν → κ) : κ → List (Chunk ν) → κ → Prop
  | low,[],high => low = high
  | low,chunk :: rest,high => low = rank chunk.min ∧ rank chunk.min < rank chunk.max ∧ Links rank (rank chunk.max) rest high

theorem chain_links (ranked : Ranked (woCompare bson) rank) :
    Chain bson low chunks high ↔ Links rank (rank low) chunks (rank high) := by
  induction chunks generalizing low with
  | nil => exact ranked.eq low high
  | cons chunk rest ih => simp [Chain,Links,ranked.eq,ranked.lt,ih]

theorem links_append :
    Links rank low (before++behind) high ↔ ∃ middle, Links rank low before middle ∧ Links rank middle behind high := by
  induction before generalizing low with
  | nil => simp [Links]
  | cons chunk rest ih =>
    simp only [List.cons_append,Links,ih]
    constructor
    · rintro ⟨starts,proper,middle,first,second⟩
      exact ⟨middle,⟨starts,proper,first⟩,second⟩
    · rintro ⟨middle,⟨starts,proper,first⟩,second⟩
      exact ⟨starts,proper,middle,first,second⟩

theorem links_unique (some : chunks ≠ [])
    (first : Links rank low chunks high) (second : Links rank other chunks last) : low = other ∧ high = last := by
  induction chunks generalizing low other with
  | nil => exact absurd rfl some
  | cons chunk rest ih =>
    refine ⟨first.1.trans second.1.symm,?_⟩
    cases rest with
    | nil => exact first.2.2.symm.trans second.2.2
    | cons next rest => exact (ih (by simp) first.2.2 second.2.2).2

theorem links_le (links : Links rank low chunks high) : low ≤ high := by
  induction chunks generalizing low with
  | nil => exact le_of_eq links
  | cons chunk rest ih => exact links.1 ▸ le_trans (le_of_lt links.2.1) (ih links.2.2)

theorem links_apart (links : Links rank low chunks high) :
    (∀ chunk ∈ chunks, low ≤ rank chunk.min ∧ rank chunk.min < rank chunk.max ∧ rank chunk.max ≤ high) ∧
      chunks.Pairwise fun left right => rank left.max ≤ rank right.min := by
  induction chunks generalizing low with
  | nil => exact ⟨nofun,.nil⟩
  | cons chunk rest ih =>
    obtain ⟨starts,proper,tail⟩ := links
    obtain ⟨inside,apart⟩ := ih tail
    refine ⟨List.forall_mem_cons.mpr ⟨⟨le_of_eq starts,proper,links_le tail⟩,?_⟩,List.pairwise_cons.mpr ⟨?_,apart⟩⟩
    · intro other mem
      obtain ⟨low',rest'⟩ := inside other mem
      exact ⟨le_trans (le_of_lt (starts ▸ proper)) low',rest'⟩
    · exact fun other mem => (inside other mem).1

theorem links_cover (links : Links rank low chunks high) :
    (low ≤ key → key < high → ∃ chunk ∈ chunks, rank chunk.min ≤ key ∧ key < rank chunk.max) ∧
      (low < key → key ≤ high → ∃ chunk ∈ chunks, rank chunk.min < key ∧ key ≤ rank chunk.max) := by
  induction chunks generalizing low with
  | nil =>
    refine ⟨fun below above => ?_,fun below above => ?_⟩
    · exact absurd (lt_of_le_of_lt below (links ▸ above)) (lt_irrefl _)
    · exact absurd (lt_of_lt_of_le below (links ▸ above)) (lt_irrefl _)
  | cons chunk rest ih =>
    obtain ⟨starts,proper,tail⟩ := links
    obtain ⟨first,second⟩ := ih tail
    refine ⟨fun below above => ?_,fun below above => ?_⟩
    · rcases lt_or_ge key (rank chunk.max) with inside | beyond
      · exact ⟨chunk,.head _,starts ▸ below,inside⟩
      · obtain ⟨other,mem,found⟩ := first beyond above
        exact ⟨other,.tail _ mem,found⟩
    rcases le_or_gt key (rank chunk.max) with inside | beyond
    · exact ⟨chunk,.head _,starts ▸ below,inside⟩
    · obtain ⟨other,mem,found⟩ := second beyond above
      exact ⟨other,.tail _ mem,found⟩

theorem change_links (ranked : Ranked (woCompare bson) rank)
    (links : Links rank low old high) (change : Change bson epoch old now) : Links rank low now high := by
  obtain ⟨some,_,first,second,_⟩ := change
  obtain ⟨left,before,rest⟩ := links_append.mp links
  obtain ⟨right,middle,behind⟩ := links_append.mp rest
  rw [chain_links ranked] at first second
  obtain ⟨rfl,rfl⟩ := links_unique some middle first
  exact links_append.mpr ⟨_,before,links_append.mpr ⟨_,second,behind⟩⟩

-- What is there now was there before, or came later than everything that was.
structure Follows (epoch : BitVec 96) (old : List (Chunk ν)) (version : ChunkVersion) (now : List (Chunk ν)) : Prop where
  known : ∀ chunk ∈ now, chunk ∈ old ∨ version.combined < chunk.lastmod.combined
  reached : ∃ chunk ∈ now, version.combined ≤ chunk.lastmod.combined
  set : ∀ chunk ∈ now, chunk.lastmod.isSet = true
  epochs : ∀ chunk ∈ now, chunk.lastmod.epoch = epoch

theorem isSet_later {low high : ChunkVersion} (later : low.combined < high.combined) : high.isSet = true := by
  simp only [ChunkVersion.isSet,decide_eq_true_eq]
  omega

theorem follows_change (follows : Follows epoch old version now)
    (change : Change bson epoch now next) : Follows epoch old version next := by
  obtain @⟨run,renewed,before,behind,_,_,_,some,_,_,newer⟩ := change
  obtain ⟨top,topIn,above⟩ := follows.reached
  have later : ∀ new ∈ renewed, version.combined < new.lastmod.combined := fun new mem =>
    lt_of_le_of_lt above ((newer new mem).2 top topIn)
  have kept : ∀ chunk ∈ before++(renewed++behind), chunk ∈ renewed ∨ chunk ∈ before++(run++behind) := by
    intro chunk mem
    rcases mem_append.mp mem with first | mem
    · exact .inr (List.mem_append_left _ first)
    · exact (mem_append.mp mem).imp_right fun last => List.mem_append_right _ (List.mem_append_right _ last)
  refine ⟨?_,?_,?_,?_⟩
  · intro chunk mem
    rcases kept chunk mem with new | old
    · exact .inr (later chunk new)
    · exact follows.known chunk old
  · obtain ⟨new,mem⟩ := List.exists_mem_of_ne_nil renewed some
    exact ⟨new,by simp [mem],le_of_lt (later new mem)⟩
  · intro chunk mem
    rcases kept chunk mem with new | old
    · exact isSet_later (later chunk new)
    · exact follows.set chunk old
  · intro chunk mem
    rcases kept chunk mem with new | old
    · exact (newer chunk new).1
    · exact follows.epochs chunk old

theorem evolves_follows (ranked : Ranked (woCompare bson) rank)
    (sharded : Sharded bson epoch low high old) (newest : Newest old version) (evolves : Evolves bson epoch old now) :
    Follows epoch old version now ∧ Links rank (rank low) now (rank high) := by
  induction evolves with
  | refl =>
    obtain ⟨⟨top,mem,equal⟩,_⟩ := newest
    exact ⟨⟨fun chunk inside => .inl inside,⟨top,mem,le_of_eq (by rw [equal])⟩,sharded.set,sharded.epochs⟩,
      (chain_links ranked).mp sharded.covers⟩
  | tail _ change ih => exact ⟨follows_change ih.1 change,change_links ranked ih.2 change⟩

theorem combined_inj {second : ChunkVersion} (same : first.combined = second.combined)
    (epochs : first.epoch = second.epoch) : first = second := by
  obtain ⟨minor,major,epoch⟩ := first
  obtain ⟨minor',major',epoch'⟩ := second
  have equal : major++minor = major'++minor' := BitVec.eq_of_toNat_eq same
  have low := congrArg (BitVec.extractLsb' 0 32) equal
  have high := congrArg (BitVec.extractLsb' 32 32) equal
  rw [BitVec.extractLsb'_append_eq_right,BitVec.extractLsb'_append_eq_right] at low
  rw [BitVec.extractLsb'_append_eq_left,BitVec.extractLsb'_append_eq_left] at high
  cases low
  cases high
  cases epochs
  rfl

theorem later_folds (versions : List ChunkVersion) (start : ChunkVersion) :
    (versions.foldl later start = start ∨ versions.foldl later start ∈ versions) ∧
      start.combined ≤ (versions.foldl later start).combined ∧
      ∀ version ∈ versions, version.combined ≤ (versions.foldl later start).combined := by
  induction versions generalizing start with
  | nil => exact ⟨.inl rfl,le_rfl,nofun⟩
  | cons version versions ih =>
    have chosen : later start version = start ∨ later start version = version := by
      unfold later
      split
      · exact .inr rfl
      · exact .inl rfl
    have high : start.combined ≤ (later start version).combined ∧ version.combined ≤ (later start version).combined := by
      unfold later
      split <;> omega
    obtain ⟨source,above,all⟩ := ih (later start version)
    rw [List.foldl_cons]
    refine ⟨?_,le_trans high.1 above,List.forall_mem_cons.mpr ⟨le_trans high.2 above,all⟩⟩
    rcases source with same | listed
    · rw [same]
      exact chosen.imp_right fun new => by simp [new]
    · exact .inr (.tail _ listed)

theorem later_newest (mem : top ∈ versions)
    (most : ∀ version ∈ versions, version.combined ≤ top.combined) (low : start.combined ≤ top.combined)
    (epochs : ∀ version ∈ start :: versions, version.epoch = top.epoch) : versions.foldl later start = top := by
  obtain ⟨source,_,all⟩ := later_folds versions start
  refine combined_inj (le_antisymm ?_ (all top mem)) ?_
  · rcases source with same | listed
    · rw [same]
      exact low
    · exact most _ listed
  rcases source with same | listed
  · rw [same]
    exact epochs start (.head _)
  · exact epochs _ (.tail _ listed)

end

section
variable {ν V Shard : Type} {bson : Bson ν} {tracker : ConfigDiffTracker ν V Shard} {κ : Type} [LinearOrder κ]
  {rank : BSONObj ν → κ} {low high : κ} {stored now fresh : List (Chunk ν)}

def Apart (bson : Bson ν) (tracker : ConfigDiffTracker ν V Shard) (left right : Chunk ν) : Prop :=
  hits bson tracker (rangeOf right) (keyOf tracker left) = false ∧
    hits bson tracker (rangeOf left) (keyOf tracker right) = false

section
variable (ranked : Ranked (woCompare bson) rank) (adapts : Adapts tracker)
include ranked adapts

theorem apart_ordered (left : rank first.min < rank first.max) (right : rank second.min < rank second.max)
    (order : rank first.max ≤ rank second.min) : Apart bson tracker first second := by
  unfold Apart hits
  rw [keyOf_bound adapts,keyOf_bound adapts]
  by_cases indexed : tracker.isMinKeyIndexed = true
  · simp only [indexed,if_true,rangeOf,ranked.le,ranked.lt,Bool.and_eq_false_iff,decide_eq_false_iff_not,not_le,not_lt]
    exact ⟨.inl (lt_of_lt_of_le left order),.inr order⟩
  · simp only [indexed,Bool.false_eq_true,if_false,rangeOf,ranked.le,ranked.lt,Bool.and_eq_false_iff,
      decide_eq_false_iff_not,not_le,not_lt]
    exact ⟨.inl order,.inr (lt_of_le_of_lt order right)⟩

theorem links_pairwise (links : Links rank low now high) : now.Pairwise (Apart bson tracker) := by
  obtain ⟨inside,apart⟩ := links_apart links
  refine apart.imp_of_mem ?_
  intro left right leftIn rightIn order
  exact apart_ordered ranked adapts (inside left leftIn).2.1 (inside right rightIn).2.1 order

omit ranked adapts in
theorem apart_distinct (apart : now.Pairwise (Apart bson tracker)) (first : left ∈ now) (second : right ∈ now)
    (differ : left ≠ right) : hits bson tracker (rangeOf right) (keyOf tracker left) = false := by
  have _ : Std.Symm (Apart bson tracker) := ⟨fun _ _ both => ⟨both.2,both.1⟩⟩
  exact (apart.forall first second differ).1

theorem links_hit (links : Links rank low now high)
    (starts : low ≤ rank chunk.min) (proper : rank chunk.min < rank chunk.max)
    (ends : rank chunk.max ≤ high) :
    ∃ other ∈ now, hits bson tracker (rangeOf other) (keyOf tracker chunk) = true := by
  unfold hits
  rw [keyOf_bound adapts]
  by_cases indexed : tracker.isMinKeyIndexed = true
  · obtain ⟨other,mem,before,behind⟩ := (links_cover links).1 starts (lt_of_lt_of_le proper ends)
    exact ⟨other,mem,by simp [indexed,rangeOf,ranked.le,ranked.lt,before,behind]⟩
  · obtain ⟨other,mem,before,behind⟩ := (links_cover links).2 (lt_of_le_of_lt starts proper) ends
    exact ⟨other,mem,by simp [indexed,rangeOf,ranked.le,ranked.lt,before,behind]⟩

omit ranked adapts in
theorem entries_sorted (adapts : Adapts tracker) (links : Links rank low now high) :
    Sorted rank (now.map (entryOf tracker)) := by
  obtain ⟨inside,apart⟩ := links_apart links
  unfold Sorted
  rw [List.pairwise_map]
  refine apart.imp_of_mem ?_
  intro left right leftIn rightIn order
  have first := (inside left leftIn).2.1
  have second := (inside right rightIn).2.1
  have keys : rank (keyOf tracker left) < rank (keyOf tracker right) := by
    rw [keyOf_bound adapts,keyOf_bound adapts]
    split
    · exact lt_of_lt_of_le first order
    · exact lt_of_le_of_lt order second
  exact keys

-- What has to be true of the stored chunks and the documents for the map to become
-- that of the chunks there are now.
structure Leads (bson : Bson ν) (tracker : ConfigDiffTracker ν V Shard) (stored fresh now : List (Chunk ν)) : Prop where
  current : ∀ chunk ∈ fresh, chunk ∈ now
  gone : ∀ chunk ∈ stored, chunk ∉ now → ∃ other ∈ fresh, hits bson tracker (rangeOf other) (keyOf tracker chunk) = true
  kept : ∀ chunk ∈ now, chunk ∉ fresh → chunk ∈ stored
  apart : fresh.Pairwise (Apart bson tracker)

theorem leads_entries (links : Links rank low now high) (leads : Leads bson tracker stored fresh now) :
    entry ∈ leftOver bson tracker fresh (stored.map (entryOf tracker))++fresh.map (entryOf tracker) ↔
      entry ∈ now.map (entryOf tracker) := by
  rw [mem_append,leftOver,mem_filter]
  constructor
  · rintro (⟨old,free⟩ | new)
    · obtain ⟨chunk,mem,rfl⟩ := mem_map.mp old
      refine mem_map_of_mem ?_
      by_contra missing
      obtain ⟨other,listed,hit⟩ := leads.gone chunk mem missing
      have miss := List.all_eq_true.mp free other listed
      simp [show hits bson tracker (rangeOf other) (entryOf tracker chunk).1 = true from hit] at miss
    · obtain ⟨chunk,mem,rfl⟩ := mem_map.mp new
      exact mem_map_of_mem (leads.current chunk mem)
  intro present
  obtain ⟨chunk,mem,rfl⟩ := mem_map.mp present
  by_cases listed : chunk ∈ fresh
  · exact .inr (mem_map_of_mem listed)
  refine .inl ⟨mem_map_of_mem (leads.kept chunk mem listed),List.all_eq_true.mpr ?_⟩
  intro other inside
  have differ : chunk ≠ other := fun same => listed (same ▸ inside)
  have miss := apart_distinct (links_pairwise ranked adapts links) mem (leads.current other inside) differ
  simpa [keyOf] using miss

omit ranked adapts in
theorem leads_reload [DecidableEq Shard] (ranked : Ranked (woCompare bson) rank) (adapts : Adapts tracker)
    (all : ∀ doc, tracker.isTracked doc = true) (links : Links rank low now high)
    (leads : Leads bson tracker stored fresh now) (sorted : Sorted rank (stored.map (entryOf tracker)))
    (version : ChunkVersion)
    (fits : ∀ chunk ∈ fresh, Fits bson version.epoch chunk)
    (ran : calculateConfigDiff bson tracker (fresh.map docOf)
      ⟨stored.map (entryOf tracker),version,shardVersions,count⟩ = (last,total)) :
    total = fresh.length ∧ last.currMap = now.map (entryOf tracker) ∧
      last.maxVersion = (fresh.map (·.lastmod)).foldl later version := by
  have every : trackedOf tracker fresh = fresh := List.filter_eq_self.mpr fun chunk _ => all (docOf chunk)
  obtain ⟨passes,result⟩ := diff_applied ranked adapts _ fits sorted ran
  rw [every] at passes result
  obtain ⟨counted,order,perm,newest⟩ := result (passes.mpr (leads.apart.imp fun both => both.1))
  refine ⟨counted,?_,newest⟩
  refine sorted_ext order (entries_sorted adapts links) ?_
  intro entry
  rw [perm.mem_iff]
  exact leads_entries ranked adapts links leads

omit ranked adapts in
theorem compatible_own (same : version.epoch = epoch) : hasCompatibleEpoch version epoch = true := by
  simp [hasCompatibleEpoch,same]

omit ranked adapts in
theorem apart_perm (apart : now.Pairwise (Apart bson tracker)) (perm : fresh.Perm now) :
    fresh.Pairwise (Apart bson tracker) :=
  (perm.pairwise_iff fun both => ⟨both.2,both.1⟩).mpr apart

theorem leads_diff
    (before : Links rank low stored high) (links : Links rank low now high) (follows : Follows epoch stored version now)
    (diffs : fresh.Perm (now.filter fun chunk => decide (version.combined ≤ chunk.lastmod.combined))) :
    Leads bson tracker stored fresh now where
  current chunk mem := (mem_filter.mp (diffs.mem_iff.mp mem)).1
  gone chunk mem missing := by
    obtain ⟨starts,proper,ends⟩ := (links_apart before).1 chunk mem
    obtain ⟨other,present,hit⟩ := links_hit ranked adapts links starts proper ends
    refine ⟨other,diffs.mem_iff.mpr (mem_filter.mpr ⟨present,?_⟩),hit⟩
    rcases follows.known other present with old | newer
    · have differ : chunk ≠ other := fun same => missing (same ▸ present)
      rw [apart_distinct (links_pairwise ranked adapts before) mem old differ] at hit
      cases hit
    · simpa using le_of_lt newer
  kept chunk mem missing := by
    rcases follows.known chunk mem with old | newer
    · exact old
    · exact absurd (diffs.mem_iff.mpr (mem_filter.mpr ⟨mem,by simpa using le_of_lt newer⟩)) missing
  apart := apart_perm ((links_pairwise ranked adapts links).filter _) diffs

theorem leads_whole (links : Links rank low now high) (whole : fresh.Perm now) : Leads bson tracker [] fresh now where
  current _ mem := whole.mem_iff.mp mem
  gone := nofun
  kept _ mem missing := absurd (whole.mem_iff.mpr mem) missing
  apart := apart_perm (links_pairwise ranked adapts links) whole

end

theorem fits_now (ranked : Ranked (woCompare bson) rank) (links : Links rank low now high)
    (follows : Follows epoch stored version now) (leads : Leads bson tracker others fresh now) :
    ∀ chunk ∈ fresh, Fits bson epoch chunk := by
  intro chunk mem
  have present := leads.current chunk mem
  exact ⟨(ranked.lt _ _).mpr ((links_apart links).1 chunk present).2.1,follows.set chunk present,
    compatible_own (follows.epochs chunk present)⟩

theorem newest_folds (follows : Follows epoch stored version now) (newest : Newest now top)
    (own : start.epoch = epoch) (low : start.combined ≤ top.combined)
    (inside : ∀ chunk ∈ fresh, chunk ∈ now) (has : ∀ chunk ∈ now, start.combined ≤ chunk.lastmod.combined → chunk ∈ fresh) :
    (fresh.map (·.lastmod)).foldl later start = top := by
  obtain ⟨⟨last,lastIn,rfl⟩,most⟩ := newest
  refine later_newest (mem_map_of_mem (has last lastIn low)) ?_ low ?_
  · intro each mem
    obtain ⟨chunk,listed,rfl⟩ := mem_map.mp mem
    exact most chunk (inside chunk listed)
  rw [follows.epochs last lastIn]
  refine List.forall_mem_cons.mpr ⟨own,?_⟩
  intro each mem
  obtain ⟨chunk,listed,rfl⟩ := mem_map.mp mem
  exact follows.epochs chunk (inside chunk listed)

end

end Mongo.ChunkDiff
