import SipxExternals.MongoSorter

namespace Mongo.Sorter
open Foundations.Sorting
open List (mem_append_right mem_cons pairwise_cons)

def streamComp (comp : δ → δ → Int) (lhs rhs : Stream δ) : Int :=
  if comp lhs.current rhs.current ≠ 0 then comp lhs.current rhs.current else (lhs.fileNum : Int)-rhs.fileNum

def Stream.whole (stream : Stream δ) : List δ := stream.current :: stream.rest

def pending (streams : List (Stream δ)) : List δ := streams.flatMap Stream.whole

structure Streams (comp : δ → δ → Int) (streams : List (Stream δ)) : Prop where
  numbered : streams.Pairwise fun earlier later => earlier.fileNum < later.fileNum
  sorted : ∀ stream ∈ streams, Sorted comp stream.whole

section
variable {comp : δ → δ → Int}

theorem greater_iff : greater comp lhs rhs = true ↔ 0 < streamComp comp lhs rhs := by
  unfold greater streamComp
  split
  · simp
  · simp

theorem not_greater : greater comp lhs rhs = false ↔ AtMost (streamComp comp) lhs rhs := by
  rw [← Bool.not_eq_true,greater_iff]
  exact Int.not_lt

theorem streamComp_preorders (ordered : Preorders comp) : Preorders (streamComp comp) := by
  constructor
  · intro a b
    have one := ordered.flips a.current b.current
    have two := ordered.flips b.current a.current
    unfold streamComp
    split <;> split <;> omega
  intro a b c first second
  have whole := ordered.transitive a.current b.current c.current
  have back := ordered.transitive c.current a.current b.current
  have above := ordered.transitive b.current c.current a.current
  have one := ordered.flips a.current c.current
  have three := ordered.flips a.current b.current
  have four := ordered.flips b.current c.current
  unfold streamComp at first second ⊢
  split at first <;> split at second <;> split <;> omega

end

section
variable {comp : δ → δ → Int}

section
variable (ordered : Preorders comp)
include ordered

theorem not_less : less comp a b = false ↔ AtMost comp b a := by
  rw [less,decide_eq_false_iff_not,← not_atMost ordered,Classical.not_not]

theorem less_total (a b : δ) : less comp a b = false ∨ less comp b a = false := by
  rw [not_less ordered,not_less ordered]
  exact preorders_total ordered b a

theorem less_transitive (a b c : δ) : less comp a b = false → less comp b c = false → less comp a c = false := by
  rw [not_less ordered,not_less ordered,not_less ordered]
  exact fun first second => ordered.transitive c b a second first

theorem greater_total (a b : Stream δ) : greater comp a b = false ∨ greater comp b a = false := by
  rw [not_greater,not_greater]
  exact preorders_total (streamComp_preorders ordered) a b

theorem greater_transitive (a b c : Stream δ) :
    greater comp a b = false → greater comp b c = false → greater comp a c = false := by
  rw [not_greater,not_greater,not_greater]
  exact (streamComp_preorders ordered).transitive a b c

end

def pairHeaps (ordered : Preorders comp) : HeapAlgorithms δ (less comp) :=
  descending (less_total ordered) (less_transitive ordered)

def streamHeaps (ordered : Preorders comp) : HeapAlgorithms (Stream δ) (greater comp) :=
  descending (greater_total ordered) (greater_transitive ordered)

end

section
variable {comp : δ → δ → Int} {heaps : HeapAlgorithms (Stream δ) (greater comp)}

structure Ready (heaps : HeapAlgorithms (Stream δ) (greater comp)) (streams : List (Stream δ)) (chosen : Stream δ)
    (heap : List (Stream δ)) : Prop where
  good : Streams comp streams
  parts : (chosen :: heap).Perm streams
  arranged : heaps.Heap heap
  least : ∀ stream ∈ heap, AtMost (streamComp comp) chosen stream

theorem front_least (arranged : heaps.Heap (front :: rest)) : ∀ stream ∈ rest, AtMost (streamComp comp) front stream := by
  intro stream mem
  exact not_greater.mp (heaps.greatest front rest arranged stream mem)

theorem takeTop_front (arranged : heaps.Heap (front :: rest)) :
    ∃ heap, takeTop heaps (front :: rest) = (some front,heap) ∧ heaps.Heap heap ∧ heap.Perm rest := by
  obtain ⟨heap,popped,kept,perm⟩ := heaps.popped front rest arranged
  refine ⟨heap,?_,kept,perm⟩
  simp [takeTop,popped]

theorem ready_front (good : Streams comp streams) (arranged : heaps.Heap (front :: rest))
    (perm : (front :: rest).Perm streams) :
    ∃ heap, takeTop heaps (front :: rest) = (some front,heap) ∧ Ready heaps streams front heap := by
  obtain ⟨heap,taken,kept,same⟩ := takeTop_front arranged
  refine ⟨heap,taken,good,(same.cons front).trans perm,kept,?_⟩
  intro stream mem
  exact front_least arranged stream (same.mem_iff.mp mem)

theorem choose_ended (good : Streams comp streams) (arranged : heaps.Heap heap) (perm : heap.Perm streams)
    (some : streams ≠ []) : ∃ chosen left, choose heaps heap none = .ok (chosen,left) ∧ Ready heaps streams chosen left := by
  cases heap with
  | nil => exact absurd perm.symm.eq_nil some
  | cons front rest =>
    obtain ⟨left,taken,ready⟩ := ready_front good arranged perm
    refine ⟨front,left,?_,ready⟩
    simp [choose,taken]

theorem choose_advanced (ordered : Preorders comp) (good : Streams comp streams) (arranged : heaps.Heap heap)
    (perm : (current :: heap).Perm streams) :
    ∃ chosen left, choose heaps heap (some current) = .ok (chosen,left) ∧ Ready heaps streams chosen left := by
  have ranked := streamComp_preorders ordered
  cases heap with
  | nil => exact ⟨current,[],rfl,good,perm,arranged,fun _ mem => nomatch mem⟩
  | cons front rest =>
    by_cases above : greater comp current front = true
    · obtain ⟨heap,taken,kept,same⟩ := takeTop_front arranged
      obtain ⟨pushed,moved⟩ := heaps.pushed heap current kept
      have behind : (heaps.pushHeap (heap++[current])).Perm (current :: rest) :=
        moved.trans ((List.perm_append_singleton current heap).trans (same.cons current))
      refine ⟨front,heaps.pushHeap (heap++[current]),by simp [choose,above,taken],good,?_,pushed,?_⟩
      · exact ((behind.cons front).trans (.swap current front rest)).trans perm
      intro stream mem
      rcases mem_cons.mp (behind.mem_iff.mp mem) with rfl | later
      · have less := (ranked.flips front stream).mpr (greater_iff.mp above)
        exact less.le
      · exact front_least arranged stream later
    · have low : AtMost (streamComp comp) current front := not_greater.mp (by simpa using above)
      refine ⟨current,front :: rest,by simp [choose,above],good,perm,arranged,?_⟩
      intro stream mem
      rcases mem_cons.mp mem with rfl | later
      · exact low
      · exact ranked.transitive _ _ _ low (front_least arranged stream later)

end

section
variable {comp : δ → δ → Int} {heaps : HeapAlgorithms (Stream δ) (greater comp)}

theorem pending_append : pending (first++second) = pending first++pending second :=
  List.flatMap_append

theorem current_first (good : Streams comp streams) (mem : stream ∈ streams) (inside : item ∈ stream.whole)
    (ordered : Preorders comp) : AtMost comp stream.current item := by
  rcases mem_cons.mp inside with rfl | later
  · exact (preorders_refl ordered).le
  · exact (pairwise_cons.mp (good.sorted stream mem)).1 item later

-- A stream before the chosen one has a smaller number, so its pairs are strictly greater.
section
variable (ordered : Preorders comp) (good : Streams comp streams) (mem : stream ∈ streams)
include ordered good mem

theorem earlier_greater (number : stream.fileNum < chosen.fileNum) (least : AtMost (streamComp comp) chosen stream)
    (inside : item ∈ stream.whole) : comp chosen.current item < 0 := by
  refine less_atMost ordered ?_ (current_first good mem inside ordered)
  unfold AtMost streamComp at least
  split at least <;> omega

theorem later_atMost
    (least : AtMost (streamComp comp) chosen stream) (inside : item ∈ stream.whole) : AtMost comp chosen.current item := by
  refine ordered.transitive _ _ _ ?_ (current_first good mem inside ordered)
  unfold AtMost streamComp at least
  split at least <;> omega

end

theorem ready_first (ordered : Preorders comp) (ready : Ready heaps streams chosen heap) :
    ∃ before behind, streams = before++chosen :: behind ∧ heap.Perm (before++behind) ∧
      stableSort comp (pending streams) =
        chosen.current :: stableSort comp (pending before++(chosen.rest++pending behind)) := by
  obtain ⟨before,behind,rfl⟩ := List.append_of_mem (ready.parts.mem_iff.mp (.head _))
  have others : heap.Perm (before++behind) := (ready.parts.trans List.perm_middle).cons_inv
  obtain ⟨_,_,numbers⟩ := List.pairwise_append.mp ready.good.numbered
  refine ⟨before,behind,rfl,others,?_⟩
  have parts : pending (before++chosen :: behind) =
      pending before++chosen.current :: (chosen.rest++pending behind) := by
    rw [pending_append]
    rfl
  rw [parts]
  refine stableSort_first ordered ?_ ?_
  · intro item inside
    obtain ⟨stream,mem,inside⟩ := List.mem_flatMap.mp inside
    exact earlier_greater ordered ready.good (List.mem_append_left _ mem) (numbers stream mem chosen (.head _))
      (ready.least stream (others.mem_iff.mpr (List.mem_append_left _ mem))) inside
  intro item inside
  rcases List.mem_append.mp inside with here | later
  · exact current_first ready.good (mem_append_right _ (.head _)) (.tail _ here) ordered
  · obtain ⟨stream,mem,inside⟩ := List.mem_flatMap.mp later
    exact later_atMost ordered ready.good (mem_append_right _ (.tail _ mem))
      (ready.least stream (others.mem_iff.mpr (mem_append_right _ mem))) inside

end

section
variable {comp : δ → δ → Int}

-- What is still to come. The pair of the current stream has been returned, unless no
-- pair has.
inductive Holds (heaps : HeapAlgorithms (Stream δ) (greater comp)) (iterator : MergeIterator δ) : List δ → Prop where
  | fresh : iterator.first = true → iterator.current = some chosen → Ready heaps streams chosen iterator.heap →
      Holds heaps iterator (pending streams)
  | going : iterator.first = false → iterator.current = some chosen → heaps.Heap iterator.heap →
      iterator.heap.Perm (before++behind) → Streams comp (before++chosen :: behind) →
      Holds heaps iterator (pending before++(chosen.rest++pending behind))

variable {heaps : HeapAlgorithms (Stream δ) (greater comp)} {iterator : MergeIterator δ}

theorem streams_without (good : Streams comp (before++chosen :: behind)) : Streams comp (before++behind) := by
  have sublist : (before++behind).Sublist (before++chosen :: behind) :=
    (List.Sublist.refl before).append (List.sublist_cons_self chosen behind)
  exact ⟨good.numbered.sublist sublist,fun stream mem => good.sorted stream (sublist.subset mem)⟩

theorem streams_advanced (good : Streams comp (before++chosen :: behind)) (rest : chosen.rest = next :: later) :
    Streams comp (before++⟨chosen.fileNum,next,later⟩ :: behind) := by
  obtain ⟨first,second,across⟩ := List.pairwise_append.mp good.numbered
  obtain ⟨behindChosen,second⟩ := pairwise_cons.mp second
  refine ⟨List.pairwise_append.mpr ⟨first,pairwise_cons.mpr ⟨behindChosen,second⟩,?_⟩,?_⟩
  · intro earlier mem stream inside
    rcases mem_cons.mp inside with rfl | inside
    · exact across earlier mem chosen (.head _)
    · exact across earlier mem stream (.tail _ inside)
  intro stream mem
  rcases List.mem_append.mp mem with mem | mem
  · exact good.sorted stream (List.mem_append_left _ mem)
  rcases mem_cons.mp mem with rfl | mem
  · have sorted := good.sorted chosen (mem_append_right _ (.head _))
    unfold Stream.whole at sorted
    rw [rest] at sorted
    exact (pairwise_cons.mp sorted).2
  · exact good.sorted stream (mem_append_right _ (.tail _ mem))

theorem choose_going (ordered : Preorders comp) (arranged : heaps.Heap heap) (others : heap.Perm (before++behind))
    (good : Streams comp (before++chosen :: behind)) (some : pending before++(chosen.rest++pending behind) ≠ []) :
    ∃ streams next left, choose heaps heap chosen.advance = .ok (next,left) ∧ Ready heaps streams next left ∧
      pending streams = pending before++(chosen.rest++pending behind) := by
  unfold Stream.advance
  cases rest : chosen.rest with
  | nil =>
    have same : pending (before++behind) = pending before++([]++pending behind) := pending_append
    rw [rest,← same] at some
    have streams : before++behind ≠ [] := fun none => some (by rw [none]; rfl)
    obtain ⟨next,left,chose,ready⟩ := choose_ended (streams_without good) arranged others streams
    exact ⟨before++behind,next,left,chose,ready,same⟩
  | cons item later =>
    have perm : (⟨chosen.fileNum,item,later⟩ :: heap).Perm (before++⟨chosen.fileNum,item,later⟩ :: behind) :=
      (others.cons _).trans List.perm_middle.symm
    obtain ⟨next,left,chose,ready⟩ := choose_advanced ordered (streams_advanced good rest) arranged perm
    refine ⟨_,next,left,chose,ready,?_⟩
    rw [pending_append]
    rfl

theorem next_holds (ordered : Preorders comp) (holds : Holds heaps iterator left) (some : left ≠ [])
    (allowed : iterator.remaining ≠ 0) :
    ∃ out after later, iterator.next heaps = .ok (out,after) ∧ after.remaining = iterator.remaining-1 ∧
      Holds heaps after later ∧ stableSort comp left = out :: stableSort comp later := by
  cases holds with
  | fresh first current ready =>
    obtain ⟨before,behind,rfl,others,sorted⟩ := ready_first ordered ready
    refine ⟨_,{iterator with remaining := iterator.remaining-1,first := false},_,?_,rfl,
      .going rfl current ready.arranged others ready.good,sorted⟩
    simp [MergeIterator.next,if_neg allowed,current,first]
  | going first current arranged others good =>
    obtain ⟨streams,next,heap,chose,ready,same⟩ := choose_going ordered arranged others good some
    obtain ⟨before,behind,rfl,others,sorted⟩ := ready_first ordered ready
    rw [same] at sorted
    refine ⟨next.current,_,_,?_,rfl,
      @Holds.going δ comp heaps {iterator with remaining := iterator.remaining-1,current := .some next,heap := heap}
        next before behind first rfl ready.arranged others ready.good,sorted⟩
    simp only [MergeIterator.next,if_neg allowed,current,first,chose]
    rfl

theorem pending_nil : pending streams = [] ↔ streams = [] := by
  cases streams with
  | nil => exact ⟨fun _ => rfl,fun _ => rfl⟩
  | cons stream streams => exact ⟨fun empty => (nomatch empty),fun empty => (nomatch empty)⟩

theorem more_holds (holds : Holds heaps iterator left) (allowed : iterator.remaining ≠ 0) :
    left ≠ [] ∧ iterator.more = (true,iterator) ∨ left = [] ∧ iterator.more.1 = false := by
  have positive : iterator.remaining > 0 := Nat.pos_of_ne_zero allowed
  cases holds with
  | fresh first current ready =>
    left
    refine ⟨?_,by simp [MergeIterator.more,positive,first]⟩
    intro empty
    rw [pending_nil.mp empty] at ready
    exact absurd ready.parts.eq_nil (List.cons_ne_nil _ _)
  | @going chosen before behind first current arranged others good =>
    by_cases empty : iterator.heap = []
    · rw [empty] at others
      obtain ⟨rfl,rfl⟩ := List.append_eq_nil_iff.mp others.symm.eq_nil
      cases rest : chosen.rest with
      | nil =>
        right
        exact ⟨rfl,by simp [MergeIterator.more,first,empty,current,Stream.more,rest]⟩
      | cons item later =>
        left
        exact ⟨by simp [pending],by simp [MergeIterator.more,positive,first,empty,current,Stream.more,rest]⟩
    · left
      refine ⟨?_,by simp [MergeIterator.more,positive,empty]⟩
      intro none
      obtain ⟨one,two⟩ := List.append_eq_nil_iff.mp none
      obtain ⟨_,two⟩ := List.append_eq_nil_iff.mp two
      rw [pending_nil.mp one,pending_nil.mp two] at others
      exact empty others.eq_nil

theorem reads_holds (ordered : Preorders comp) (holds : Holds heaps iterator left)
    (enough : min iterator.remaining left.length < turns) :
    readAll heaps turns (.merge iterator) = some (.ok ((stableSort comp left).take iterator.remaining)) := by
  induction turns generalizing iterator left with
  | zero => exact absurd enough (Nat.not_lt_zero _)
  | succ turns ih =>
    by_cases allowed : iterator.remaining = 0
    · simp [readAll,Iterator.more,MergeIterator.more,allowed]
    rcases more_holds holds allowed with ⟨some,more⟩ | ⟨rfl,more⟩
    · obtain ⟨out,after,later,next,fewer,holds,sorted⟩ := next_holds ordered holds some allowed
      have lengths : left.length = later.length+1 := by
        have equal := congrArg List.length sorted
        rwa [List.length_cons,(stableSort_perm comp left).length_eq,(stableSort_perm comp later).length_eq] at equal
      obtain ⟨count,equal⟩ : ∃ count, iterator.remaining = count+1 := ⟨iterator.remaining-1,by omega⟩
      have read := ih holds (by omega)
      simp only [readAll,Iterator.more,more,Iterator.next,next,read]
      rw [sorted,fewer,equal,List.take_succ_cons,Nat.add_sub_cancel]
    · simp [readAll,Iterator.more,more,stableSort]

end

theorem reads_inMem (enough : data.length < turns) : readAll heaps turns (.inMem data) = some (.ok data) := by
  induction turns generalizing data with
  | zero => exact absurd enough (Nat.not_lt_zero _)
  | succ turns ih =>
    cases data with
    | nil => rfl
    | cons out data =>
      have read := ih (Nat.lt_of_succ_lt_succ enough)
      simp [readAll,Iterator.more,Iterator.next,read]

section
variable {comp : δ → δ → Int}

theorem openFrom_pending (fileNum : Nat) (iters : List (List δ)) : pending (openFrom fileNum iters) = iters.flatten := by
  induction iters generalizing fileNum with
  | nil => rfl
  | cons iter iters ih =>
    cases iter with
    | nil => exact ih _
    | cons next rest =>
      simp only [openFrom,pending,List.flatMap_cons,Stream.whole,List.flatten_cons] at ih ⊢
      rw [ih]

theorem openFrom_from (fileNum : Nat) (iters : List (List δ)) : ∀ stream ∈ openFrom fileNum iters, fileNum ≤ stream.fileNum := by
  induction iters generalizing fileNum with
  | nil => intro stream mem; cases mem
  | cons iter iters ih =>
    intro stream mem
    cases iter with
    | nil =>
      have later := ih (fileNum+1) stream mem
      omega
    | cons next rest =>
      rcases mem_cons.mp mem with rfl | mem
      · exact le_rfl
      · have later := ih (fileNum+1) stream mem
        omega

theorem openFrom_streams (fileNum : Nat) (sorted : ∀ iter ∈ iters, Sorted comp iter) :
    Streams comp (openFrom fileNum iters) := by
  induction iters generalizing fileNum with
  | nil => exact ⟨.nil,fun _ mem => nomatch mem⟩
  | cons iter iters ih =>
    have later := ih (fileNum+1) (List.forall_mem_cons.mp sorted).2
    cases iter with
    | nil => exact later
    | cons next rest =>
      refine ⟨pairwise_cons.mpr ⟨?_,later.numbered⟩,?_⟩
      · intro stream mem
        exact openFrom_from (fileNum+1) iters stream mem
      exact List.forall_mem_cons.mpr ⟨sorted (next :: rest) (.head _),later.sorted⟩

theorem merge_reads (ordered : Preorders comp) {heaps : HeapAlgorithms (Stream δ) (greater comp)}
    (sorted : ∀ iter ∈ iters, Sorted comp iter) (enough : min opts.remaining iters.flatten.length < turns) :
    readAll heaps turns (.merge (MergeIterator.make heaps opts iters)) =
      some (.ok ((stableSort comp iters.flatten).take opts.remaining)) := by
  have whole := openFrom_pending 0 iters
  have good := openFrom_streams 0 sorted
  unfold MergeIterator.make
  cases opened : openFrom 0 iters with
  | nil =>
    rw [opened] at whole
    obtain ⟨turns,rfl⟩ : ∃ more, turns = more+1 := ⟨turns-1,by omega⟩
    rw [← whole]
    simp [readAll,Iterator.more,MergeIterator.more,pending,stableSort]
  | cons stream streams =>
    obtain ⟨arranged,perm⟩ := heaps.made (stream :: streams)
    cases made : heaps.makeHeap (stream :: streams) with
    | nil =>
      rw [made] at perm
      exact absurd perm.symm.eq_nil (List.cons_ne_nil _ _)
    | cons front rest =>
      rw [made] at arranged perm
      rw [opened] at good whole
      obtain ⟨heap,taken,ready⟩ := ready_front good arranged perm
      have fresh : Holds heaps ⟨opts.remaining,true,some front,heap⟩ (pending (stream :: streams)) := .fresh rfl rfl ready
      rw [← whole] at enough ⊢
      simpa [taken,made] using reads_holds ordered fresh enough

end

end Mongo.Sorter
