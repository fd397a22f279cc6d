import Mathlib.Data.List.Induction
import Mathlib.Data.List.TakeWhile
import SipxExternals.MongoMergeIterator

namespace Mongo.Sorter
open Foundations.Sorting List
open Nat (zero_le)

def TopKSorter.kept (sorter : TopKSorter δ) : List δ := sorter.iters.flatten++sorter.data

-- As many of the pairs are no worse than a candidate for the cutoff as were counted for it.
structure Counted (comp : δ → δ → Int) (pairs : List δ) (sorter : TopKSorter δ) : Prop where
  worst : sorter.worstCount ≤ upTo comp sorter.worstSeen pairs
  median : sorter.medianCount ≤ upTo comp sorter.lastMedian pairs

structure Backed (comp : δ → δ → Int) (limit : Nat) (pairs : List δ) (sorter : TopKSorter δ) : Prop where
  cut : sorter.haveCutoff = true → limit ≤ upTo comp sorter.cutoff pairs
  counted : Counted comp pairs sorter

section
variable {opts : SortOptions} {comp : δ → δ → Int} {sorter : TopKSorter δ}

theorem promoteWorst_backed (backed : Backed comp opts.limit pairs sorter) :
    Backed comp opts.limit pairs (sorter.promoteWorst opts comp) := by
  unfold TopKSorter.promoteWorst
  split
  · rename_i enough
    split
    · exact ⟨fun _ => Nat.le_trans enough backed.counted.worst,zero_le _,backed.counted.median⟩
    · exact ⟨backed.cut,zero_le _,backed.counted.median⟩
  · exact backed

theorem promoteMedian_backed (backed : Backed comp opts.limit pairs sorter) :
    Backed comp opts.limit pairs (sorter.promoteMedian opts comp) := by
  unfold TopKSorter.promoteMedian
  split
  · rename_i enough
    split
    · exact ⟨fun _ => Nat.le_trans enough backed.counted.median,backed.counted.worst,zero_le _⟩
    · exact ⟨backed.cut,backed.counted.worst,zero_le _⟩
  · exact backed

theorem upper_counts (ordered : Preorders comp) (bound : δ) (items : List δ) :
    (items.takeWhile fun item => !less comp bound item).length ≤ upTo comp bound items := by
  have all : upTo comp bound (items.takeWhile fun item => !less comp bound item) =
      (items.takeWhile fun item => !less comp bound item).length := by
    refine upTo_all ?_
    intro item mem
    have low := mem_takeWhile_imp mem
    exact (not_less ordered).mp (by simpa using low)
  rw [← all]
  exact (takeWhile_sublist _).countP_le

end

section
variable [Inhabited δ] {opts : SortOptions} {comp : δ → δ → Int} {sorter : TopKSorter δ}

theorem last_atMost (ordered : Preorders comp) (sorted : Sorted comp items) :
    ∀ item ∈ items, AtMost comp item (items.getLastD default) := by
  intro item mem
  cases items using reverseRecOn with
  | nil => cases mem
  | append_singleton items last _ =>
    have across := (pairwise_append.mp sorted).2.2
    simp only [getLastD_concat]
    rcases mem_append.mp mem with earlier | here
    · exact across item earlier last (.head _)
    · rw [mem_singleton.mp here]
      exact (preorders_refl ordered).le

theorem pick_worst (ordered : Preorders comp) (sorted : Sorted comp sorter.data)
    (worst : sorter.worstCount ≤ upTo comp sorter.worstSeen files) :
    sorter.worstCount ≤ upTo comp (sorter.pick comp).worstSeen files ∧
      ∀ item ∈ sorter.data, AtMost comp item (sorter.pick comp).worstSeen := by
  have last := last_atMost ordered sorted
  simp only [TopKSorter.pick]
  split
  · rename_i changed
    refine ⟨?_,last⟩
    rcases changed with zero | less
    · omega
    · have higher : AtMost comp sorter.worstSeen (sorter.data.getLastD default) := (of_decide_eq_true less).le
      exact le_trans worst (upTo_mono ordered higher)
  · rename_i same
    obtain ⟨_,same⟩ := not_or.mp same
    have higher := (not_less ordered).mp (Bool.not_eq_true _ ▸ same)
    exact ⟨worst,fun item mem => ordered.transitive _ _ _ (last item mem) higher⟩

theorem pick_median (median : sorter.medianCount ≤ upTo comp sorter.lastMedian files) :
    sorter.medianCount ≤ upTo comp (sorter.pick comp).lastMedian files := by
  simp only [TopKSorter.pick]
  split
  · omega
  · exact median

theorem count_backed (ordered : Preorders comp) (sorted : Sorted comp sorter.data) (counted : Counted comp files sorter)
    (cut : sorter.haveCutoff = true → opts.limit ≤ upTo comp sorter.cutoff (files++sorter.data)) :
    Backed comp opts.limit (files++sorter.data) ((sorter.pick comp).count comp) := by
  obtain ⟨worst,all⟩ := pick_worst ordered sorted counted.worst
  have median := pick_median counted.median
  have upper := upper_counts ordered (sorter.pick comp).lastMedian sorter.data
  refine ⟨cut,?_,?_⟩
  · change sorter.worstCount+sorter.data.length ≤ upTo comp (sorter.pick comp).worstSeen (files++sorter.data)
    rw [upTo_append,upTo_all all]
    omega
  change sorter.medianCount+(sorter.data.takeWhile fun item => !less comp (sorter.pick comp).lastMedian item).length ≤
    upTo comp (sorter.pick comp).lastMedian (files++sorter.data)
  rw [upTo_append]
  omega

theorem updateCutoff_frame (sorter : TopKSorter δ) : (sorter.updateCutoff opts comp).data = sorter.data ∧
    (sorter.updateCutoff opts comp).iters = sorter.iters := by
  unfold TopKSorter.updateCutoff TopKSorter.promoteMedian TopKSorter.promoteWorst
  split_ifs <;> exact ⟨rfl,rfl⟩

theorem updateCutoff_backed (ordered : Preorders comp) (sorted : Sorted comp sorter.data)
    (counted : Counted comp files sorter)
    (cut : sorter.haveCutoff = true → opts.limit ≤ upTo comp sorter.cutoff (files++sorter.data)) :
    Backed comp opts.limit (files++sorter.data) (sorter.updateCutoff opts comp) :=
  promoteMedian_backed (promoteWorst_backed (count_backed ordered sorted counted cut))

end

-- What was dropped is covered by the pairs kept, in the files and in memory.
structure Keeps (opts : SortOptions) {comp : δ → δ → Int} (heaps : HeapAlgorithms δ (less comp)) (sorter : TopKSorter δ)
    (dropped seen : List δ) : Prop where
  parts : (dropped++sorter.kept).Perm seen
  covers : Covers comp opts.limit sorter.kept dropped
  spilled : ∀ iter ∈ sorter.iters, Sorted comp iter
  fits : sorter.data.length ≤ opts.limit
  arranged : sorter.data.length = opts.limit → heaps.Heap sorter.data
  cut : sorter.haveCutoff = true → opts.limit ≤ upTo comp sorter.cutoff sorter.kept
  counted : Counted comp sorter.iters.flatten sorter

section
variable {opts : SortOptions} {comp : δ → δ → Int} {heaps : HeapAlgorithms δ (less comp)} {sorter : TopKSorter δ}

theorem sort_sorted (ordered : Preorders comp) (arranged : sorter.data.length = opts.limit → heaps.Heap sorter.data) :
    Sorted comp (sorter.sort opts heaps).data ∧ (sorter.sort opts heaps).data.Perm sorter.data := by
  unfold TopKSorter.sort
  split
  · rename_i full
    obtain ⟨sorted,perm⟩ := heaps.sorted sorter.data (arranged full)
    exact ⟨sorted.imp ((not_less ordered).mp),perm⟩
  · exact ⟨stableSort_sorted ordered,stableSort_perm comp _⟩

theorem sort_kept (keeps : Keeps opts heaps sorter dropped seen) (perm : (sorter.sort opts heaps).data.Perm sorter.data) :
    (sorter.sort opts heaps).iters = sorter.iters ∧ Counted comp sorter.iters.flatten (sorter.sort opts heaps) ∧
      ((sorter.sort opts heaps).haveCutoff = true → opts.limit ≤ upTo comp (sorter.sort opts heaps).cutoff
        (sorter.iters.flatten++(sorter.sort opts heaps).data)) := by
  have cut : sorter.haveCutoff = true →
      opts.limit ≤ upTo comp sorter.cutoff (sorter.iters.flatten++(sorter.sort opts heaps).data) := by
    intro found
    rw [upTo_perm (perm.append_left sorter.iters.flatten)]
    exact keeps.cut found
  unfold TopKSorter.sort at cut ⊢
  split at cut
  · rename_i full
    rw [if_pos full]
    exact ⟨rfl,⟨keeps.counted.worst,keeps.counted.median⟩,cut⟩
  · rename_i partly
    rw [if_neg partly]
    exact ⟨rfl,⟨keeps.counted.worst,keeps.counted.median⟩,cut⟩

theorem covers_perm (covers : Covers comp limit kept dropped) (perm : other.Perm kept) : Covers comp limit other dropped := by
  constructor
  intro item mem
  rw [upTo_perm perm]
  exact covers.covered item mem

theorem spilled_keeps (some : 0 < opts.limit) (keeps : Keeps opts heaps sorter dropped seen) (sorted : Sorted comp data)
    (perm : data.Perm sorter.data) (backed : Backed comp opts.limit (sorter.iters.flatten++data) updated) :
    Keeps opts heaps {updated with data := [],iters := sorter.iters++[data],memUsed := 0} dropped seen := by
  have kept : (sorter.iters.flatten++data).Perm sorter.kept := perm.append_left _
  have flat : (sorter.iters++[data]).flatten = sorter.iters.flatten++data := by simp
  have same : TopKSorter.kept {updated with data := [],iters := sorter.iters++[data],memUsed := 0} =
      sorter.iters.flatten++data := by
    rw [TopKSorter.kept,append_nil,flat]
  refine ⟨?_,?_,?_,zero_le _,?_,?_,?_⟩
  · rw [same]
    exact (kept.append_left dropped).trans keeps.parts
  · rw [same]
    exact covers_perm keeps.covers kept
  · intro iter mem
    rcases mem_append.mp mem with earlier | here
    · exact keeps.spilled iter earlier
    · rw [mem_singleton.mp here]
      exact sorted
  · intro full
    exact absurd full (ne_of_lt some)
  · rw [same]
    exact backed.cut
  · simp only [flat]
    exact ⟨backed.counted.worst,backed.counted.median⟩

variable [Inhabited δ]

section
variable (ordered : Preorders comp) (some : 0 < opts.limit) (allowed : opts.extSortAllowed = true) (keeps : Keeps opts heaps sorter dropped seen)
include ordered some allowed keeps

theorem spill_keeps :
    ∃ next, sorter.spill opts heaps = .ok next ∧ next.data = [] ∧ Keeps opts heaps next dropped seen := by
  unfold TopKSorter.spill
  split
  · rename_i empty
    exact ⟨sorter,rfl,by simpa using empty,keeps⟩
  rw [if_neg (by simp [allowed])]
  obtain ⟨sorted,perm⟩ := sort_sorted ordered keeps.arranged
  obtain ⟨files,counted,cut⟩ := sort_kept keeps perm
  obtain ⟨sameData,sameFiles⟩ := @updateCutoff_frame δ _ opts comp (sorter.sort opts heaps)
  refine ⟨_,rfl,rfl,?_⟩
  rw [sameData,sameFiles,files]
  exact spilled_keeps some keeps sorted perm (updateCutoff_backed ordered sorted counted cut)

theorem spillIfNeeded_keeps :
    ∃ next, sorter.spillIfNeeded opts heaps = .ok next ∧ Keeps opts heaps next dropped seen := by
  unfold TopKSorter.spillIfNeeded
  split
  · obtain ⟨next,spilled,_,keeps⟩ := spill_keeps ordered some allowed keeps
    exact ⟨next,spilled,keeps⟩
  · exact ⟨sorter,rfl,keeps⟩

end

end

section
variable {opts : SortOptions} {comp : δ → δ → Int} {heaps : HeapAlgorithms δ (less comp)} {sorter : TopKSorter δ}

theorem seen_kept (parts : (dropped++kept).Perm seen) {item : δ} : (dropped++(kept++[item])).Perm (seen++[item]) := by
  rw [← append_assoc]
  exact parts.append_right [item]

theorem seen_dropped (parts : (dropped++kept).Perm seen) {item : δ} : ((item :: dropped)++kept).Perm (seen++[item]) :=
  (parts.cons item).trans (perm_append_singleton item seen).symm

theorem drop_keeps (keeps : Keeps opts heaps sorter dropped seen) (enough : opts.limit ≤ upTo comp item sorter.kept) :
    Keeps opts heaps sorter (item :: dropped) (seen++[item]) := by
  refine ⟨seen_dropped keeps.parts,⟨?_⟩,keeps.spilled,keeps.fits,keeps.arranged,keeps.cut,keeps.counted⟩
  exact forall_mem_cons.mpr ⟨enough,keeps.covers.covered⟩

theorem upTo_more : upTo comp bound kept ≤ upTo comp bound (kept++[item]) := by
  rw [upTo_append]
  exact Nat.le_add_right _ _

theorem push_keeps (keeps : Keeps opts heaps sorter dropped seen) (room : sorter.data.length < opts.limit)
    (perm : data.Perm (sorter.data++[item])) (arranged : data.length = opts.limit → heaps.Heap data) :
    Keeps opts heaps {sorter with data := data,memUsed := memUsed} dropped (seen++[item]) := by
  have kept : (sorter.iters.flatten++data).Perm (sorter.kept++[item]) := by
    rw [TopKSorter.kept,append_assoc]
    exact perm.append_left _
  have more : ∀ bound, upTo comp bound sorter.kept ≤ upTo comp bound (sorter.iters.flatten++data) := by
    intro bound
    rw [upTo_perm kept]
    exact upTo_more
  refine ⟨(kept.append_left dropped).trans (seen_kept keeps.parts),⟨?_⟩,keeps.spilled,?_,arranged,?_,
    ⟨keeps.counted.worst,keeps.counted.median⟩⟩
  · intro other mem
    exact le_trans (keeps.covers.covered other mem) (more other)
  · have length := perm.length_eq
    rw [length_append,length_singleton] at length
    change data.length ≤ opts.limit
    omega
  · intro found
    exact le_trans (keeps.cut found) (more sorter.cutoff)

theorem front_worst (ordered : Preorders comp) (arranged : heaps.Heap (front :: rest)) :
    ∀ item ∈ front :: rest, AtMost comp item front := by
  exact forall_mem_cons.mpr ⟨(preorders_refl ordered).le,fun item later => (not_less ordered).mp (heaps.greatest front rest arranged item later)⟩

theorem upTo_cons : upTo comp bound (item :: items) = upTo comp bound items+(if AtMost comp item bound then 1 else 0) := by
  simp [upTo,countP_cons]

theorem upTo_better (ordered : Preorders comp) (better : comp item front < 0) :
    upTo comp bound (files++front :: rest) ≤ upTo comp bound (files++item :: rest) := by
  rw [upTo_append,upTo_append,upTo_cons,upTo_cons]
  by_cases low : AtMost comp front bound
  · have also : AtMost comp item bound := (less_atMost ordered better low).le
    rw [if_pos low,if_pos also]
  · rw [if_neg low]
    omega

theorem replace_keeps (ordered : Preorders comp) (keeps : Keeps opts heaps sorter dropped seen)
    (full : sorter.data.length = opts.limit) (top : sorter.data = front :: rest) (better : comp item front < 0)
    (perm : data.Perm (item :: rest)) (arranged : heaps.Heap data) :
    Keeps opts heaps {sorter with data := data,memUsed := memUsed} (front :: dropped) (seen++[item]) := by
  have before : sorter.kept = sorter.iters.flatten++front :: rest := by rw [TopKSorter.kept,top]
  have kept : (sorter.iters.flatten++data).Perm (sorter.iters.flatten++item :: rest) := perm.append_left _
  have more : ∀ bound, upTo comp bound sorter.kept ≤ upTo comp bound (sorter.iters.flatten++data) := by
    intro bound
    rw [upTo_perm kept,before]
    exact upTo_better ordered better
  have worst := front_worst ordered (top ▸ keeps.arranged full)
  have length := perm.length_eq
  rw [top] at full
  refine ⟨?_,⟨?_⟩,keeps.spilled,?_,fun _ => arranged,?_,⟨keeps.counted.worst,keeps.counted.median⟩⟩
  · have parts := keeps.parts
    rw [before] at parts
    have swapped : (front :: dropped++(sorter.iters.flatten++data)).Perm
        (item :: (dropped++(sorter.iters.flatten++front :: rest))) := by
      calc (front :: dropped++(sorter.iters.flatten++data)).Perm
            (front :: (dropped++(item :: (sorter.iters.flatten++rest)))) :=
              ((kept.trans perm_middle).append_left dropped).cons front
        _ |>.Perm (front :: item :: (dropped++(sorter.iters.flatten++rest))) := perm_middle.cons front
        _ |>.Perm (item :: front :: (dropped++(sorter.iters.flatten++rest))) := .swap _ _ _
        _ |>.Perm (item :: (dropped++(front :: (sorter.iters.flatten++rest)))) := perm_middle.symm.cons item
        _ |>.Perm (item :: (dropped++(sorter.iters.flatten++front :: rest))) :=
              (perm_middle.symm.append_left dropped).cons item
    exact (swapped.trans (parts.cons item)).trans (perm_append_singleton item seen).symm
  · intro other mem
    rcases mem_cons.mp mem with rfl | mem
    · have all : upTo comp other (other :: rest) = (other :: rest).length := upTo_all worst
      refine le_trans ?_ (more other)
      rw [before,upTo_append,all,full]
      exact Nat.le_add_left _ _
    · exact le_trans (keeps.covers.covered other mem) (more other)
  · change data.length ≤ opts.limit
    rw [length,← full]
    exact le_rfl
  · intro found
    exact le_trans (keeps.cut found) (more sorter.cutoff)

variable [Inhabited δ] (memUsage : δ → Nat)

section
variable (ordered : Preorders comp) (some : 0 < opts.limit) (allowed : opts.extSortAllowed = true) (keeps : Keeps opts heaps sorter dropped seen)
include ordered some allowed keeps

theorem add_keeps :
    ∃ next dropped, sorter.add opts memUsage heaps item = .ok next ∧ Keeps opts heaps next dropped (seen++[item]) := by
  unfold TopKSorter.add
  split
  · rename_i room
    split
    · rename_i cut
      have most := (not_less ordered).mp cut.2
      exact ⟨sorter,item :: dropped,rfl,drop_keeps keeps (le_trans (keeps.cut cut.1) (upTo_mono ordered most))⟩
    obtain ⟨made,perm⟩ := heaps.made (sorter.data++[item])
    have pushed : Keeps opts heaps {sorter with
        data := if (sorter.data++[item]).length = opts.limit then heaps.makeHeap (sorter.data++[item])
          else sorter.data++[item]
        memUsed := sorter.memUsed+memUsage item} dropped (seen++[item]) := by
      refine push_keeps keeps room ?_ ?_
      · split
        · exact perm
        · exact .refl _
      intro full
      split
      · exact made
      · rename_i other
        rw [if_neg other] at full
        exact absurd full other
    obtain ⟨next,done,keeps⟩ := spillIfNeeded_keeps ordered some allowed pushed
    exact ⟨next,dropped,done,keeps⟩
  rename_i noRoom
  have full : sorter.data.length = opts.limit := Nat.le_antisymm keeps.fits (Nat.le_of_not_lt noRoom)
  rw [if_neg (by simp [full])]
  cases top : sorter.data with
  | nil =>
    rw [top] at full
    exact absurd full (ne_of_lt some)
  | cons front rest =>
    have arranged : heaps.Heap (front :: rest) := top ▸ keeps.arranged full
    simp only
    split
    · rename_i worse
      have most := (not_less ordered).mp worse
      have all : upTo comp front (front :: rest) = (front :: rest).length := upTo_all (front_worst ordered arranged)
      have enough : opts.limit ≤ upTo comp front sorter.kept := by
        rw [TopKSorter.kept,top,upTo_append,all,← full,top]
        exact Nat.le_add_left _ _
      exact ⟨sorter,item :: dropped,rfl,drop_keeps keeps (le_trans enough (upTo_mono ordered most))⟩
    rename_i better
    obtain ⟨heap,popped,kept,perm⟩ := heaps.popped front rest arranged
    obtain ⟨pushed,moved⟩ := heaps.pushed heap item kept
    have placed : (heaps.pushHeap (heap++[item])).Perm (item :: rest) :=
      moved.trans ((perm_append_singleton item heap).trans (perm.cons item))
    rw [popped,dropLast_concat]
    obtain ⟨next,done,keeps⟩ := spillIfNeeded_keeps ordered some allowed
      (replace_keeps ordered keeps full top (by simpa [less] using better) placed pushed)
    exact ⟨next,front :: dropped,done,keeps⟩

theorem addAll_keeps (input : List δ) :
    ∃ next dropped, sorter.addAll opts memUsage heaps input = .ok next ∧ Keeps opts heaps next dropped (seen++input) := by
  induction input generalizing sorter dropped seen with
  | nil =>
    rw [append_nil]
    exact ⟨sorter,dropped,rfl,keeps⟩
  | cons item input ih =>
    obtain ⟨middle,more,added,keeps⟩ := add_keeps memUsage ordered some allowed keeps
    obtain ⟨next,final,rest,keeps⟩ := ih keeps
    rw [append_assoc] at keeps
    exact ⟨next,final,by simpa [TopKSorter.addAll,added] using rest,keeps⟩

end

theorem start_keeps (some : 0 < opts.limit) : Keeps opts heaps TopKSorter.start [] [] :=
  ⟨.refl _,⟨fun _ mem => nomatch mem⟩,fun _ mem => (nomatch mem),zero_le _,
    fun full => absurd full (Nat.ne_of_lt some),fun found => (nomatch found),zero_le _,zero_le _⟩

end

structure TopOf (comp : δ → δ → Int) (limit : Nat) (input out : List δ) : Prop where
  sorted : Sorted comp out
  counted : out.length = min limit input.length
  within : out.Subperm input
  least : List.Forall₂ (fun a b => comp a b = 0) out ((stableSort comp input).take (min limit input.length))

section
variable {opts : SortOptions} {comp : δ → δ → Int} {heaps : HeapAlgorithms δ (less comp)} {sorter : TopKSorter δ}

theorem keeps_top (ordered : Preorders comp) (keeps : Keeps opts heaps sorter dropped input)
    (sorted : Sorted comp whole) (perm : whole.Perm sorter.kept) : TopOf comp opts.limit input (whole.take opts.limit) := by
  have lengths := covers_length keeps.covers
  rw [keeps.parts.length_eq,← perm.length_eq] at lengths
  have least := covers_least ordered keeps.covers sorted perm (stableSort_sorted ordered)
    ((stableSort_perm comp input).trans keeps.parts.symm)
  refine ⟨sorted.sublist (take_sublist _ _),?_,?_,?_⟩
  · rw [length_take,lengths]
  · exact (take_sublist _ _).subperm.trans
      (perm.subperm.trans ((sublist_append_right dropped _).subperm.trans keeps.parts.subperm))
  have cut : (stableSort comp input).take opts.limit = (stableSort comp input).take (min opts.limit input.length) := by
    rw [← (stableSort_perm comp input).length_eq,take_eq_take_iff]
    omega
  rw [← cut]
  exact least

theorem done_top [Inhabited δ] (ordered : Preorders comp) (some : 0 < opts.limit) (allowed : opts.extSortAllowed = true)
    (keeps : Keeps opts heaps sorter dropped input) :
    ∃ iterator out, sorter.done opts heaps streams = .ok iterator ∧
      (∀ turns, min opts.limit input.length < turns → readAll streams turns iterator = .some (.ok out)) ∧
      TopOf comp opts.limit input out := by
  have lengths := covers_length keeps.covers
  rw [keeps.parts.length_eq] at lengths
  unfold TopKSorter.done
  split
  · rename_i noFiles
    have kept : sorter.kept = sorter.data := by
      rw [TopKSorter.kept,isEmpty_iff.mp noFiles]
      rfl
    obtain ⟨sorted,perm⟩ := sort_sorted ordered keeps.arranged
    have top := keeps_top ordered keeps sorted (kept ▸ perm)
    have length := perm.length_eq
    have fits := keeps.fits
    rw [take_of_length_le (by omega)] at top
    refine ⟨_,_,rfl,?_,top⟩
    intro turns enough
    rw [kept] at lengths
    exact reads_inMem (by omega)
  · obtain ⟨next,spilled,empty,keeps⟩ := spill_keeps ordered some allowed keeps
    have kept : next.kept = next.iters.flatten := by rw [TopKSorter.kept,empty,append_nil]
    have remaining : opts.remaining = opts.limit := if_pos (ne_of_gt some)
    rw [spilled]
    refine ⟨_,_,rfl,?_,keeps_top ordered keeps (stableSort_sorted ordered) (stableSort_perm comp _)⟩
    intro turns enough
    have lengths := covers_length keeps.covers
    rw [keeps.parts.length_eq,kept] at lengths
    rw [kept,← remaining]
    exact merge_reads ordered keeps.spilled (by omega)

end

def byKey (lhs rhs : Int × Int) : Int := lhs.1-rhs.1

theorem byKey_preorders : Preorders byKey := by
  constructor
  · intro a b
    unfold byKey
    omega
  · intro a b c
    unfold byKey
    omega

end Mongo.Sorter
