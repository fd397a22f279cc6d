import Mathlib.Tactic.Ring
import SipxExternals.MongoTopKSorter

namespace Mongo.Sorter
open Foundations.Sorting

-- Each file is sorted, and pairs that compare equal have stayed in the order of the input.
structure Splits (comp : δ → δ → Int) (sorter : NoLimitSorter δ) (seen : List δ) : Prop where
  spilled : ∀ iter ∈ sorter.iters, Sorted comp iter
  stable : ∀ item, equals comp item (sorter.iters.flatten++sorter.data) = equals comp item seen

section
variable {opts : SortOptions} {comp : δ → δ → Int} {sorter : NoLimitSorter δ}

theorem spill_splits (ordered : Preorders comp) (allowed : opts.extSortAllowed = true) (splits : Splits comp sorter seen) :
    ∃ next, sorter.spill opts comp = .ok next ∧ next.data = [] ∧ Splits comp next seen := by
  unfold NoLimitSorter.spill
  split
  · rename_i empty
    exact ⟨sorter,rfl,by simpa using empty,splits⟩
  rw [if_neg (by simp [allowed])]
  refine ⟨_,rfl,rfl,?_,?_⟩
  · intro iter mem
    rcases List.mem_append.mp mem with earlier | here
    · exact splits.spilled iter earlier
    · rw [List.mem_singleton.mp here]
      exact stableSort_sorted ordered
  intro item
  have same := splits.stable item
  rw [equals_append] at same
  simp only [NoLimitSorter.sort,List.flatten_append,List.flatten_singleton,List.append_nil]
  rw [equals_append,equals_stableSort ordered,same]

section
variable (memUsage : δ → Nat) (ordered : Preorders comp) (allowed : opts.extSortAllowed = true) (splits : Splits comp sorter seen)
include memUsage ordered allowed splits

theorem add_splits : ∃ next, sorter.add opts memUsage comp item = .ok next ∧ Splits comp next (seen++[item]) := by
  have pushed : Splits comp {sorter with data := sorter.data++[item],memUsed := sorter.memUsed+memUsage item}
      (seen++[item]) := by
    refine ⟨splits.spilled,?_⟩
    intro other
    rw [← List.append_assoc,equals_append,splits.stable other,equals_append]
  simp only [NoLimitSorter.add]
  split
  · obtain ⟨next,spilled,_,splits⟩ := spill_splits ordered allowed pushed
    exact ⟨next,spilled,splits⟩
  · exact ⟨_,rfl,pushed⟩

theorem addAll_splits (input : List δ) :
    ∃ next, sorter.addAll opts memUsage comp input = .ok next ∧ Splits comp next (seen++input) := by
  induction input generalizing sorter seen with
  | nil =>
    rw [List.append_nil]
    exact ⟨sorter,rfl,splits⟩
  | cons item input ih =>
    obtain ⟨middle,added,splits⟩ := add_splits memUsage ordered allowed splits
    obtain ⟨next,rest,splits⟩ := ih splits
    rw [List.append_assoc] at splits
    exact ⟨next,by simpa [NoLimitSorter.addAll,added] using rest,splits⟩

end

theorem splits_length (ordered : Preorders comp) (splits : Splits comp sorter seen) :
    stableSort comp (sorter.iters.flatten++sorter.data) = stableSort comp seen ∧
      (sorter.iters.flatten++sorter.data).length = seen.length := by
  have same := stableSort_congr ordered splits.stable
  refine ⟨same,?_⟩
  rw [← (stableSort_perm comp _).length_eq,same,(stableSort_perm comp seen).length_eq]

theorem done_inMem (ordered : Preorders comp) (splits : Splits comp sorter seen) (noFiles : sorter.iters = []) :
    sorter.done opts comp streams = .ok (.inMem (stableSort comp seen)) := by
  obtain ⟨same,_⟩ := splits_length ordered splits
  simp [NoLimitSorter.done,NoLimitSorter.sort,noFiles,← same]

theorem done_merge (ordered : Preorders comp) (allowed : opts.extSortAllowed = true) (splits : Splits comp sorter seen)
    (files : sorter.iters ≠ []) (streams : HeapAlgorithms (Stream δ) (greater comp)) :
    ∃ iterator, sorter.done opts comp streams = .ok iterator ∧ ∀ turns, min opts.remaining seen.length < turns →
      readAll streams turns iterator = some (.ok ((stableSort comp seen).take opts.remaining)) := by
  obtain ⟨next,spilled,empty,splits⟩ := spill_splits ordered allowed splits
  obtain ⟨same,lengths⟩ := splits_length ordered splits
  rw [empty,List.append_nil] at same lengths
  refine ⟨.merge (MergeIterator.make streams opts next.iters),by simp [NoLimitSorter.done,files,spilled],?_⟩
  intro turns enough
  rw [← same]
  exact merge_reads ordered splits.spilled (by rwa [lengths])

end

theorem noLimit_sorts (opts : SortOptions) (memUsage : δ → Nat) (comp : δ → δ → Int)
    (streams : HeapAlgorithms (Stream δ) (greater comp)) (input : List δ) (ordered : Preorders comp)
    (limit : opts.limit = 0) (allowed : opts.extSortAllowed = true) (countable : input.length < 2^64) :
    ∃ iterator, NoLimitSorter.sortAll opts memUsage comp streams input = .ok iterator ∧
      ∀ turns, input.length < turns → readAll streams turns iterator = some (.ok (stableSort comp input)) := by
  have begun : Splits comp ⟨0,[],[]⟩ [] := ⟨fun _ member => (nomatch member),fun _ => rfl⟩
  obtain ⟨sorter,added,splits⟩ := addAll_splits memUsage ordered allowed begun input
  have finished : NoLimitSorter.sortAll opts memUsage comp streams input = sorter.done opts comp streams := by
    simp [NoLimitSorter.sortAll,NoLimitSorter.make,limit,added]
  have length := (stableSort_perm comp input).length_eq
  rw [finished]
  by_cases noFiles : sorter.iters = []
  · refine ⟨_,done_inMem ordered splits noFiles,?_⟩
    intro turns enough
    exact reads_inMem (by rw [List.nil_append,length]; exact enough)
  have remaining : opts.remaining = 18446744073709551615 := if_neg (by simp [limit])
  obtain ⟨iterator,done,reads⟩ := done_merge ordered allowed splits noFiles streams
  refine ⟨iterator,done,?_⟩
  intro turns enough
  have read := reads turns (lt_of_le_of_lt (Nat.min_le_right _ _) enough)
  rw [List.nil_append,List.take_of_length_le (by omega)] at read
  exact read

theorem noLimit_sorts_spilling :
    ∃ iterator, NoLimitSorter.sortAll ⟨0,3,true⟩ (fun _ => 2) byKey (streamHeaps byKey_preorders)
        [(3,0),(1,1),(2,2),(1,3),(3,4)] = .ok iterator ∧
      ∀ turns, 5 < turns → readAll (streamHeaps byKey_preorders) turns iterator =
        some (.ok (stableSort byKey [(3,0),(1,1),(2,2),(1,3),(3,4)])) :=
  noLimit_sorts ⟨0,3,true⟩ (fun _ => 2) byKey (streamHeaps byKey_preorders) [(3,0),(1,1),(2,2),(1,3),(3,4)]
    byKey_preorders rfl rfl (by decide)

section
variable {comp : δ → δ → Int} {sorter : NoLimitSorter δ}

theorem add_files (added : sorter.add ⟨0,0,true⟩ (fun _ => 1) comp item = .ok next) : next.iters ≠ [] := by
  simp only [NoLimitSorter.add,NoLimitSorter.spill] at added
  rw [if_pos (Nat.succ_pos _),if_neg (by simp),if_neg (by simp)] at added
  cases added
  simp

theorem addAll_files (added : sorter.addAll ⟨0,0,true⟩ (fun _ => 1) comp input = .ok next)
    (some : sorter.iters ≠ [] ∨ input ≠ []) : next.iters ≠ [] := by
  induction input generalizing sorter with
  | nil =>
    cases added
    exact some.resolve_right fun different => different rfl
  | cons item input ih =>
    simp only [NoLimitSorter.addAll] at added
    split at added
    · cases added
    · rename_i middle first
      exact ih added (.inl (add_files first))

theorem noLimit_cut (ordered : Preorders comp) (beyond : (⟨0,0,true⟩ : SortOptions).remaining < input.length) :
    ∃ iterator out, NoLimitSorter.sortAll ⟨0,0,true⟩ (fun _ => 1) comp streams input = .ok iterator ∧
      (∀ turns, input.length < turns → readAll streams turns iterator = some (.ok out)) ∧ out ≠ stableSort comp input := by
  generalize options : (⟨0,0,true⟩ : SortOptions) = opts at beyond ⊢
  have allowed : opts.extSortAllowed = true := by rw [← options]
  have limit : opts.limit = 0 := by rw [← options]
  have begun : Splits comp ⟨0,[],[]⟩ [] := ⟨fun _ mem => (nomatch mem),fun _ => rfl⟩
  obtain ⟨sorter,added,splits⟩ := addAll_splits (fun _ => 1) ordered allowed begun input
  have files : sorter.iters ≠ [] := by
    subst options
    exact addAll_files added (.inr (List.ne_nil_of_length_pos (Nat.zero_lt_of_lt beyond)))
  obtain ⟨iterator,done,reads⟩ := done_merge ordered allowed splits files streams
  refine ⟨iterator,(stableSort comp input).take opts.remaining,?_,?_,?_⟩
  · rw [← done]
    simp [NoLimitSorter.sortAll,NoLimitSorter.make,limit,added]
  · intro turns enough
    exact reads turns (lt_of_le_of_lt (Nat.min_le_right _ _) enough)
  intro same
  have lengths := congrArg List.length same
  rw [List.length_take,(stableSort_perm comp input).length_eq] at lengths
  omega

end

theorem noLimit_counts :
    ∃ iterator out, NoLimitSorter.sortAll ⟨0,0,true⟩ (fun _ => 1) byKey (streamHeaps byKey_preorders)
        (List.replicate (2^64) (0,0)) = .ok iterator ∧
      (∀ turns, 2^64 < turns → readAll (streamHeaps byKey_preorders) turns iterator = some (.ok out)) ∧
      out ≠ stableSort byKey (List.replicate (2^64) (0,0)) := by
  generalize equal : List.replicate (2^64) ((0,0) : Int × Int) = input
  have length : input.length = 2^64 := by rw [← equal,List.length_replicate]
  have beyond : (⟨0,0,true⟩ : SortOptions).remaining < input.length := by
    rw [length]
    decide
  rw [← length]
  exact noLimit_cut byKey_preorders beyond

open List

-- The best pair so far, where there is one.
def LimitOneSorter.add (comp : δ → δ → Int) (best : Option δ) (contender : δ) : Option δ :=
  match best with
  | none => some contender
  | some best => if comp best contender ≤ 0 then some best else some contender

def LimitOneSorter.sortAll (opts : SortOptions) (comp : δ → δ → Int) (input : List δ) : Except Fault (Iterator δ) :=
  if opts.limit = 1 then .ok (.inMem (input.foldl (LimitOneSorter.add comp) none).toList) else .error .verifyFailed

theorem add_first {comp : δ → δ → Int} (ordered : Preorders comp) (front : ∀ item ∈ before, comp least item < 0)
    (back : ∀ item ∈ behind, AtMost comp least item) :
    rest.foldl (LimitOneSorter.add comp) (some least) = (stableSort comp (before++least :: (behind++rest))).head? := by
  induction rest generalizing before least behind with
  | nil =>
    rw [append_nil,stableSort_first ordered front back]
    rfl
  | cons contender rest ih =>
    rw [foldl_cons,LimitOneSorter.add]
    by_cases good : comp least contender ≤ 0
    · rw [if_pos good,ih front (forall_mem_append.mpr ⟨back,forall_mem_singleton.mpr good⟩)]
      simp
    · have better := (not_atMost ordered).mp good
      have worse := forall_mem_append.mpr ⟨fun item mem => less_atMost ordered better (le_of_lt (front item mem)),
        forall_mem_cons.mpr ⟨better,fun item mem => less_atMost ordered better (back item mem)⟩⟩
      rw [if_neg good,ih worse (forall_mem_nil _)]
      simp

theorem limitOne_sorts (opts : SortOptions) (comp : δ → δ → Int) (input : List δ) (ordered : Preorders comp)
    (limit : opts.limit = 1) : LimitOneSorter.sortAll opts comp input = .ok (.inMem ((stableSort comp input).take 1)) := by
  have first : input.foldl (LimitOneSorter.add comp) none = (stableSort comp input).head? := by
    cases input with
    | nil => rfl
    | cons item rest => exact add_first ordered (forall_mem_nil _) (forall_mem_nil _)
  rw [LimitOneSorter.sortAll,if_pos limit,first]
  cases stableSort comp input <;> rfl

theorem limitOne_sorts_ties : LimitOneSorter.sortAll ⟨1,3,true⟩ byKey [(3,0),(1,1),(2,2),(1,3)] = .ok (.inMem [(1,1)]) :=
  limitOne_sorts ⟨1,3,true⟩ byKey [(3,0),(1,1),(2,2),(1,3)] byKey_preorders rfl

end Mongo.Sorter
