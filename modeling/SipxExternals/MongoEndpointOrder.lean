import Mathlib.Data.Prod.Lex
import Mathlib.Data.String.Basic
import Mathlib.Data.Finite.Prod
import SipxExternals.FoundationsWraparound
import SipxExternals.MongoWriteOp

namespace Mongo.EndpointOrder
open Foundations.Wraparound Mongo.BatchWrite List

def low (endpoint : ShardEndpoint) : Nat := endpoint.shardVersion.combined.toNat%4294967296

theorem low_below (endpoint : ShardEndpoint) : low endpoint < 2*2147483648 :=
  Nat.mod_lt _ (by decide)

section
variable (first second : ShardEndpoint)
include first second

theorem low_difference : ((first.shardVersion.combined-second.shardVersion.combined).setWidth 32).toNat =
      offset 2147483648 (low second) (low first) := by
  unfold low offset
  rw [BitVec.toNat_setWidth,BitVec.toNat_sub]
  have firstBelow := first.shardVersion.combined.isLt
  have secondBelow := second.shardVersion.combined.isLt
  omega

theorem low_negative : ((first.shardVersion.combined-second.shardVersion.combined).setWidth 32).toInt < 0 ↔
      Before 2147483648 (low first) (low second) := by
  rw [BitVec.toInt_neg_iff,low_difference,Before]
  omega

theorem low_zero : ((first.shardVersion.combined-second.shardVersion.combined).setWidth 32).toInt = 0 ↔
      low first = low second := by
  rw [BitVec.toInt_eq_toNat_cond,low_difference]
  have below := low_below first
  have below' := low_below second
  rw [offset_eq below below']
  split <;> split <;> omega

theorem versions_differ : (first.shardVersion.combined-second.shardVersion.combined).toInt ≠ 0 ↔
      first.shardVersion.combined ≠ second.shardVersion.combined := by
  rw [ne_eq,ne_eq,not_iff_not,← BitVec.toInt_zero (w := 64),BitVec.toInt_inj]
  constructor
  · intro zero
    bv_omega
  · intro same
    rw [same,BitVec.sub_self]

end

theorem compareEndpoints_names (differ : first.shardName ≠ second.shardName) : compareEndpoints first second ≠ 0 ∧
      (compareEndpoints first second < 0 ↔ first.shardName < second.shardName) := by
  have named : compareNames first.shardName second.shardName ≠ 0 ∧
      (compareNames first.shardName second.shardName < 0 ↔ first.shardName < second.shardName) := by
    unfold compareNames
    split
    · rename_i less
      simp [less]
    · rename_i less
      simp [less]
  have same : compareEndpoints first second = compareNames first.shardName second.shardName := by
    unfold compareEndpoints
    dsimp only
    rw [if_pos named.1]
  rw [same]
  exact named

theorem compareEndpoints_versions (same : first.shardName = second.shardName)
    (differ : first.shardVersion.combined ≠ second.shardVersion.combined) :
    compareEndpoints first second = ((first.shardVersion.combined-second.shardVersion.combined).setWidth 32).toInt := by
  have named : compareNames first.shardName second.shardName = 0 := by
    rw [same,compareNames,if_neg (lt_irrefl _),if_pos rfl]
  unfold compareEndpoints
  dsimp only
  rw [if_neg (not_not_intro named),if_pos ((versions_differ first second).mpr differ)]

theorem compareEndpoints_epochs (same : first.shardName = second.shardName)
    (equal : first.shardVersion.combined = second.shardVersion.combined) :
    compareEndpoints first second = compareEpochs first.shardVersion.epoch second.shardVersion.epoch := by
  have named : compareNames first.shardName second.shardName = 0 := by
    rw [same,compareNames,if_neg (lt_irrefl _),if_pos rfl]
  have unversioned : ¬ (first.shardVersion.combined-second.shardVersion.combined).toInt ≠ 0 := by
    rw [versions_differ]
    exact not_not_intro equal
  unfold compareEndpoints
  dsimp only
  rw [if_neg (not_not_intro named),if_neg unversioned]

theorem compareEpochs_negative : compareEpochs first second < 0 ↔ first < second := by
  unfold compareEpochs
  split
  · simp_all
  · split <;> simp_all

theorem compareEpochs_zero : compareEpochs first second = 0 ↔ first = second := by
  unfold compareEpochs
  split
  · rename_i less
    have differ : first ≠ second := by
      rintro rfl
      exact BitVec.lt_irrefl _ less
    simp [differ]
  · split <;> simp_all

theorem comp_iff : endpointComp first second = true ↔
      first.shardName < second.shardName ∨ (first.shardName = second.shardName ∧
        ((first.shardVersion.combined ≠ second.shardVersion.combined ∧ Before 2147483648 (low first) (low second)) ∨
          (first.shardVersion.combined = second.shardVersion.combined ∧
            first.shardVersion.epoch < second.shardVersion.epoch))) := by
  unfold endpointComp
  rw [decide_eq_true_eq]
  by_cases same : first.shardName = second.shardName
  · by_cases equal : first.shardVersion.combined = second.shardVersion.combined
    · rw [compareEndpoints_epochs same equal,compareEpochs_negative]
      simp [same,equal]
    · rw [compareEndpoints_versions same equal,low_negative]
      simp [same,equal]
  · rw [(compareEndpoints_names same).2]
    simp [same]

theorem endpoint_ext {first : ShardEndpoint} (same : first.shardName = second.shardName)
    (equal : first.shardVersion.combined = second.shardVersion.combined)
    (epochs : first.shardVersion.epoch = second.shardVersion.epoch) : first = second := by
  cases first with
  | mk name version =>
    cases second with
    | mk other version' =>
      cases version
      cases version'
      simp_all

-- Endpoints that fall together: equal ones, and those of one shard whose versions
-- agree in their low halves.
theorem sameKey_iff {first : ShardEndpoint} : sameKey first second = true ↔
      first = second ∨ (first.shardName = second.shardName ∧
        first.shardVersion.combined ≠ second.shardVersion.combined ∧ low first = low second) := by
  have neither : sameKey first second = true ↔
      ¬ endpointComp first second = true ∧ ¬ endpointComp second first = true := by
    simp [sameKey]
  rw [neither,comp_iff,comp_iff]
  constructor
  · rintro ⟨forward,back⟩
    have same : first.shardName = second.shardName := by
      rcases lt_trichotomy first.shardName second.shardName with less | same | more
      · exact absurd (.inl less) forward
      · exact same
      · exact absurd (.inl more) back
    by_cases equal : first.shardVersion.combined = second.shardVersion.combined
    · have epochs : first.shardVersion.epoch = second.shardVersion.epoch := by
        by_contra differ
        by_cases less : first.shardVersion.epoch < second.shardVersion.epoch
        · exact forward (.inr ⟨same,.inr ⟨equal,less⟩⟩)
        · have more : second.shardVersion.epoch < first.shardVersion.epoch := by bv_omega
          exact back (.inr ⟨same.symm,.inr ⟨equal.symm,more⟩⟩)
      exact .inl (endpoint_ext same equal epochs)
    · refine .inr ⟨same,equal,eq_of_not_before (low_below first) (low_below second) ?_ ?_⟩
      · exact fun before => forward (.inr ⟨same,.inl ⟨equal,before⟩⟩)
      · exact fun before => back (.inr ⟨same.symm,.inl ⟨Ne.symm equal,before⟩⟩)
  · rintro (rfl | ⟨same,differ,lows⟩)
    · simp
    · have still : ¬ Before 2147483648 (low second) (low second) := before_irrefl (by decide)
      simp [same,differ,Ne.symm differ,lows,still]

def Apart (endpoints : Set ShardEndpoint) : Prop :=
  ∀ first ∈ endpoints, ∀ second ∈ endpoints, first.shardName = second.shardName →
    low first = low second → first.shardVersion.combined = second.shardVersion.combined

-- For each shard there is a version from which the low halves of the others are less
-- than half a turn ahead.
def WithinHalf (endpoints : Set ShardEndpoint) : Prop :=
  ∀ endpoint ∈ endpoints, ∃ base ∈ endpoints, base.shardName = endpoint.shardName ∧
    ∀ other ∈ endpoints, other.shardName = endpoint.shardName → offset 2147483648 (low base) (low other) < 2147483648

def ZeroOnlyEqual (endpoints : Set ShardEndpoint) : Prop :=
  ∀ first ∈ endpoints, ∀ second ∈ endpoints, compareEndpoints first second = 0 → first = second

def compOn (endpoints : Set ShardEndpoint) (first second : endpoints) : Prop :=
  endpointComp first.val second.val = true

section
variable {endpoints : Set ShardEndpoint}

theorem apart_sameKey (apart : Apart endpoints) (firstIn : first ∈ endpoints) (secondIn : second ∈ endpoints) :
    sameKey first second = true ↔ first = second := by
  rw [sameKey_iff]
  constructor
  · rintro (equal | ⟨same,differ,lows⟩)
    · exact equal
    · exact absurd (apart first firstIn second secondIn same lows) differ
  · exact .inl

theorem compare_zero {first : ShardEndpoint} (zero : compareEndpoints first second = 0) :
    sameKey first second = true := by
  rw [sameKey_iff]
  by_cases same : first.shardName = second.shardName
  · by_cases equal : first.shardVersion.combined = second.shardVersion.combined
    · rw [compareEndpoints_epochs same equal,compareEpochs_zero] at zero
      exact .inl (endpoint_ext same equal zero)
    · rw [compareEndpoints_versions same equal,low_zero] at zero
      exact .inr ⟨same,equal,zero⟩
  · exact absurd zero (compareEndpoints_names same).1

theorem apart_of_zeroOnlyEqual (zero : ZeroOnlyEqual endpoints) : Apart endpoints := by
  intro first firstIn second secondIn same lows
  by_contra differ
  have equal := zero first firstIn second secondIn
    (by rw [compareEndpoints_versions same differ,low_zero]; exact lows)
  exact differ (by rw [equal])

theorem withinHalf_of_order (order : IsStrictOrder endpoints (compOn endpoints)) : WithinHalf endpoints := by
  intro endpoint inside
  let Named := { other : endpoints // other.val.shardName = endpoint.shardName }
  have finite : Finite Named := by
    refine Finite.of_injective (fun other : Named => (other.val.val.shardVersion.combined.toFin,
      other.val.val.shardVersion.epoch.toFin)) ?_
    intro first second same
    obtain ⟨versions,epochs⟩ := Prod.mk.inj same
    exact Subtype.ext (Subtype.ext (endpoint_ext (first.property.trans second.property.symm)
      (BitVec.toFin_inj.mp versions) (BitVec.toFin_inj.mp epochs)))
  have nonempty : Nonempty Named := ⟨⟨⟨endpoint,inside⟩,rfl⟩⟩
  obtain ⟨base,least⟩ := exists_first (fun x y : Named => compOn endpoints x.val y.val)
    (fun x => order.irrefl x.val) (fun x y z => order.trans x.val y.val z.val)
  refine ⟨base.val.val,base.val.property,base.property,?_⟩
  intro other otherIn named
  by_contra far
  have differ : other.shardVersion.combined ≠ base.val.val.shardVersion.combined := by
    intro equal
    have lows : low other = low base.val.val := by unfold low; rw [equal]
    rw [lows,offset_self] at far
    omega
  refine least ⟨⟨other,otherIn⟩,named⟩ (comp_iff.mpr (.inr ⟨?_,.inl ⟨differ,?_⟩⟩))
  · exact named.trans base.property.symm
  · exact Nat.le_of_not_lt far

theorem exists_bases (half : WithinHalf endpoints) : ∃ base : String → Nat, (∀ name, base name < 2*2147483648) ∧
      ∀ endpoint ∈ endpoints, offset 2147483648 (base endpoint.shardName) (low endpoint) < 2147483648 := by
  have each : ∀ name, ∃ base < 2*2147483648, ∀ endpoint ∈ endpoints, endpoint.shardName = name →
      offset 2147483648 base (low endpoint) < 2147483648 := by
    intro name
    by_cases some_ : ∃ endpoint ∈ endpoints, endpoint.shardName = name
    · obtain ⟨endpoint,inside,rfl⟩ := some_
      obtain ⟨base,_,_,near⟩ := half endpoint inside
      exact ⟨low base,low_below base,near⟩
    · exact ⟨0,by decide,fun endpoint inside named => absurd ⟨endpoint,inside,named⟩ some_⟩
  choose base below near using each
  exact ⟨base,below,fun endpoint inside => near _ endpoint inside rfl⟩

theorem order_of_withinHalf (apart : Apart endpoints) (half : WithinHalf endpoints) :
    IsStrictWeakOrder endpoints (compOn endpoints) := by
  obtain ⟨base,below,near⟩ := exists_bases half
  let key : endpoints → String ×ₗ Nat ×ₗ Nat := fun endpoint =>
    toLex (endpoint.val.shardName,toLex (offset 2147483648 (base endpoint.val.shardName) (low endpoint.val),
      endpoint.val.shardVersion.epoch.toNat))
  have byKey : compOn endpoints = fun first second => key first < key second := by
    funext first second
    refine propext ?_
    rw [compOn,comp_iff,Prod.Lex.toLex_lt_toLex,Prod.Lex.toLex_lt_toLex]
    refine or_congr .rfl (and_congr_right fun same => ?_)
    have turned := before_offset (low_below first.val) (low_below second.val)
      (below first.val.shardName) (near first.val first.property)
      (by rw [same]; exact near second.val second.property)
    have lows : offset 2147483648 (base first.val.shardName) (low first.val) =
        offset 2147483648 (base second.val.shardName) (low second.val) ↔
          first.val.shardVersion.combined = second.val.shardVersion.combined := by
      constructor
      · intro equal
        rw [same] at equal
        exact apart _ first.property _ second.property same (offset_inj (low_below _) (low_below _) (below _) equal)
      intro equal
      rw [same]
      unfold low
      rw [equal]
    rw [lows,turned,← same]
    constructor
    · rintro (⟨_,less⟩ | ⟨equal,less⟩)
      · exact .inl less
      · exact .inr ⟨equal,less⟩
    rintro (less | ⟨equal,less⟩)
    · refine .inl ⟨?_,less⟩
      intro equal
      rw [← lows,← same] at equal
      omega
    · exact .inr ⟨equal,less⟩
  have linear : IsStrictWeakOrder (String ×ₗ Nat ×ₗ Nat) (· < ·) := isStrictWeakOrder_of_isOrderConnected
  rw [byKey]
  exact inferInstanceAs (IsStrictWeakOrder endpoints (Order.Preimage key (· < ·)))

theorem order_iff : (ZeroOnlyEqual endpoints ∧ IsStrictWeakOrder endpoints (compOn endpoints)) ↔
    Apart endpoints ∧ WithinHalf endpoints := by
  constructor
  · rintro ⟨zero,order⟩
    exact ⟨apart_of_zeroOnlyEqual zero,withinHalf_of_order order.toIsStrictOrder⟩
  rintro ⟨apart,half⟩
  refine ⟨?_,order_of_withinHalf apart half⟩
  intro first firstIn second secondIn zero
  exact (apart_sameKey apart firstIn secondIn).mp (compare_zero zero)

end

theorem targetLoop_keeps (kept : List Grouped → Prop) (objsize : Doc → Nat) (recordTargetErrors : Bool)
    (groups : List Grouped)
    (adds : ∀ op ∈ ops, ∀ targeted writes, op.targetWrites targeter request = .ok (targeted,writes) →
      ∀ size groups, kept groups → kept (writes.foldl (addWrite size) groups)) (start : kept groups) :
    kept (targetLoop objsize targeter request recordTargetErrors ops groups).2.1 := by
  induction ops generalizing groups with
  | nil => exact start
  | cons op rest ih =>
    obtain ⟨own,others⟩ := forall_mem_cons.mp adds
    unfold targetLoop
    dsimp only
    split
    · exact ih groups others start
    cases found : op.targetWrites targeter request with
    | error status =>
      dsimp only
      split
      · exact start
      split
      · split
        · exact start
        · exact ih groups others start
      · exact start
    | ok result =>
      obtain ⟨targeted,writes⟩ := result
      have added := own targeted writes found (getWriteSizeBytes objsize request op.item) groups start
      dsimp only
      split
      · exact start
      split
      · exact start
      · split
        · exact added
        · exact ih _ others added

section
variable {endpoints : Set ShardEndpoint}

def GroupsIn (endpoints : Set ShardEndpoint) (groups : List Grouped) : Prop :=
  ∀ group ∈ groups, group.batch.endpoint ∈ endpoints ∧
    ∀ write ∈ group.batch.writes, write.endpoint = group.batch.endpoint

theorem insertGroup_in (kept : GroupsIn endpoints groups)
    (own : group.batch.endpoint ∈ endpoints ∧ ∀ write ∈ group.batch.writes, write.endpoint = group.batch.endpoint) :
    GroupsIn endpoints (insertGroup group groups) := by
  induction groups with
  | nil =>
    intro other mem
    cases mem_singleton.mp mem
    exact own
  | cons first rest ih =>
    obtain ⟨head,tail⟩ := forall_mem_cons.mp kept
    unfold insertGroup
    split
    · exact forall_mem_cons.mpr ⟨own,kept⟩
    · exact forall_mem_cons.mpr ⟨head,ih tail⟩

section
variable (apart : Apart endpoints)
include apart

theorem addToGroup_in (inside : write.endpoint ∈ endpoints)
    (kept : GroupsIn endpoints groups) : GroupsIn endpoints (addToGroup write size groups) := by
  induction groups with
  | nil => exact kept
  | cons first rest ih =>
    obtain ⟨⟨head,writes⟩,tail⟩ := forall_mem_cons.mp kept
    unfold addToGroup
    split
    · rename_i same
      have equal := (apart_sameKey apart head inside).mp same
      refine forall_mem_cons.mpr ⟨⟨head,?_⟩,tail⟩
      intro other mem
      rcases mem_append.mp mem with earlier | new
      · exact writes other earlier
      · cases mem_singleton.mp new
        exact equal.symm
    · exact forall_mem_cons.mpr ⟨⟨head,writes⟩,ih tail⟩

theorem addWrite_in (inside : write.endpoint ∈ endpoints)
    (kept : GroupsIn endpoints groups) : GroupsIn endpoints (addWrite size groups write) := by
  unfold addWrite
  split
  · exact addToGroup_in apart inside kept
  refine insertGroup_in kept ⟨inside,?_⟩
  intro other mem
  cases mem_singleton.mp mem
  rfl

theorem addWrites_in {writes : List TargetedWrite}
    (inside : ∀ write ∈ writes, write.endpoint ∈ endpoints) (kept : GroupsIn endpoints groups) :
    GroupsIn endpoints (writes.foldl (addWrite size) groups) := by
  induction writes generalizing groups with
  | nil => exact kept
  | cons write rest ih =>
    obtain ⟨head,tail⟩ := forall_mem_cons.mp inside
    exact ih tail (addWrite_in apart head kept)

def PlacedRight (endpoints : Set ShardEndpoint) : Prop :=
  ∀ (Doc : Type) (objsize : Doc → Nat) (targeter : NSTargeter Doc) (recordTargetErrors : Bool)
    (batchOp : BatchWriteOp Doc),
    (∀ op ∈ batchOp.ops, ∀ targeted writes, op.targetWrites targeter batchOp.request = .ok (targeted,writes) →
        ∀ write ∈ writes, write.endpoint ∈ endpoints) →
    ∀ batches, (targetBatch objsize targeter recordTargetErrors batchOp).2 = .ok batches →
      ∀ batch ∈ batches, ∀ write ∈ batch.writes, write.endpoint = batch.endpoint

theorem placed_of_apart : PlacedRight endpoints := by
  intro Doc objsize targeter recordTargetErrors batchOp inside batches targeted batch mem write written
  have kept := targetLoop_keeps (GroupsIn endpoints) objsize recordTargetErrors
    [] (fun op opIn next writes found size groups => addWrites_in apart
      (inside op opIn next writes found)) nofun
  unfold targetBatch at targeted
  split at targeted
  · cases targeted
  rename_i ops groups looped
  rw [looped] at kept
  cases targeted
  obtain ⟨group,groupIn,rfl⟩ := mem_map.mp (mem_filter.mp mem).1
  exact (kept group groupIn).2 write written

end

def pairTargeter (first second : ShardEndpoint) : NSTargeter Bool where
  targetInsert later := .ok (if later then second else first)
  targetUpdate _ := .ok []
  targetDelete _ := .ok []
  targetCollection := .ok []
  targetAllShards := .ok []

def pairRequest : BatchedCommandRequest Bool :=
  ⟨"db.coll",.insert,false,true,true,[⟨false,false⟩,⟨true,true⟩]⟩

theorem pair_grouped (same : sameKey first second = true) :
    (targetBatch (fun _ => 0) (pairTargeter first second) false (initClientRequest pairRequest)).2 =
      .ok [⟨first,[⟨first,0,0⟩,⟨second,1,0⟩]⟩] := by
  simp [targetBatch,targetLoop,initClientRequest,pairRequest,pairTargeter,WriteOp.targetWrites,
    WriteOp.endpoints,WriteOp.firstEndpoints,WriteOp.childWrites,WriteOp.writeEndpoint,Except.map,
    addWrite,findGroup,insertGroup,addToGroup,Grouped.add,isNewBatchRequired,wouldMakeBatchesTooBig,
    getWriteSizeBytes,maxWriteBatchSize,same]

theorem pair_targeted (firstIn : first ∈ endpoints) (secondIn : second ∈ endpoints) :
    ∀ op ∈ (initClientRequest pairRequest).ops, ∀ targeted writes,
      op.targetWrites (pairTargeter first second) pairRequest = .ok (targeted,writes) →
        ∀ write ∈ writes, write.endpoint ∈ endpoints := by
  simp [initClientRequest,pairRequest,pairTargeter,WriteOp.targetWrites,WriteOp.endpoints,
    WriteOp.firstEndpoints,WriteOp.childWrites,WriteOp.writeEndpoint,Except.map,firstIn,secondIn]

theorem apart_of_placed (placed : PlacedRight endpoints) : Apart endpoints := by
  intro first firstIn second secondIn same lows
  by_contra differ
  have key := sameKey_iff.mpr (.inr ⟨same,differ,lows⟩)
  have wrong := placed Bool (fun _ => 0) (pairTargeter first second) false (initClientRequest pairRequest)
    (pair_targeted firstIn secondIn)
    _ (pair_grouped key) _ (.head _) ⟨second,1,0⟩ (by simp)
  exact differ (by rw [show second = first from wrong])

theorem placed_iff (endpoints : Set ShardEndpoint) : (PlacedRight endpoints ↔ Apart endpoints) ∧
      ((ZeroOnlyEqual endpoints ∧ IsStrictWeakOrder endpoints (compOn endpoints)) ↔
        Apart endpoints ∧ WithinHalf endpoints) :=
  ⟨⟨apart_of_placed,placed_of_apart⟩,order_iff⟩

end

def oneZero : ShardEndpoint := ⟨"shard",4294967296,1⟩
def twoZero : ShardEndpoint := ⟨"shard",8589934592,1⟩

theorem versions_mixed : compareEndpoints oneZero twoZero = 0 ∧ oneZero ≠ twoZero ∧
      (targetBatch (fun _ => 0) (pairTargeter oneZero twoZero) false (initClientRequest pairRequest)).2 =
        .ok [⟨oneZero,[⟨oneZero,0,0⟩,⟨twoZero,1,0⟩]⟩] :=
  ⟨by decide +kernel,by decide,pair_grouped (by decide +kernel)⟩

end Mongo.EndpointOrder
