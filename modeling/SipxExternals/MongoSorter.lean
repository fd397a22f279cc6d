import SipxExternals.FoundationsSorting

namespace Mongo.Sorter
open Foundations.Sorting

structure SortOptions where
  limit : Nat
  maxMemoryUsageBytes : Nat
  extSortAllowed : Bool

def SortOptions.remaining (opts : SortOptions) : Nat :=
  if opts.limit ≠ 0 then opts.limit else 18446744073709551615

-- The last two are undefined behaviour.
inductive Fault where
  | verifyFailed | sortExceededMemoryLimit | emptyRange | nullStream
  deriving DecidableEq

def less (comp : δ → δ → Int) (lhs rhs : δ) : Bool := decide (comp lhs rhs < 0)

-- A file that was spilled gives back the pairs that were written to it, so an input is a list.
structure Stream (δ : Type) where
  fileNum : Nat
  current : δ
  rest : List δ

def Stream.more (stream : Stream δ) : Bool := !stream.rest.isEmpty

def Stream.advance (stream : Stream δ) : Option (Stream δ) :=
  match stream.rest with
  | [] => none
  | next :: rest => some ⟨stream.fileNum,next,rest⟩

-- Uses greater rather than less-than to maintain a MinHeap.
def greater (comp : δ → δ → Int) (lhs rhs : Stream δ) : Bool :=
  if comp lhs.current rhs.current ≠ 0 then decide (comp lhs.current rhs.current > 0)
  else decide (lhs.fileNum > rhs.fileNum)

structure MergeIterator (δ : Type) where
  remaining : Nat
  first : Bool
  current : Option (Stream δ)
  heap : List (Stream δ)

def openFrom (fileNum : Nat) : List (List δ) → List (Stream δ)
  | [] => []
  | [] :: iters => openFrom (fileNum+1) iters
  | (next :: rest) :: iters => ⟨fileNum,next,rest⟩ :: openFrom (fileNum+1) iters

section
variable {comp : δ → δ → Int} (heaps : HeapAlgorithms (Stream δ) (greater comp))

def takeTop (heap : List (Stream δ)) : Option (Stream δ) × List (Stream δ) :=
  ((heaps.popHeap heap).getLast?,(heaps.popHeap heap).dropLast)

def MergeIterator.make (opts : SortOptions) (iters : List (List δ)) : MergeIterator δ :=
  let heap := openFrom 0 iters
  if heap.isEmpty then ⟨0,true,none,[]⟩
  else
    let top := takeTop heaps (heaps.makeHeap heap)
    ⟨opts.remaining,true,top.1,top.2⟩

def MergeIterator.more (iterator : MergeIterator δ) : Bool × MergeIterator δ :=
  if iterator.remaining > 0 ∧
      (iterator.first || !iterator.heap.isEmpty || iterator.current.any Stream.more) = true then (true,iterator)
  else (false,{iterator with heap := [],current := none,remaining := 0})

def choose (heap : List (Stream δ)) : Option (Stream δ) → Except Fault (Stream δ × List (Stream δ))
  | none =>
    if heap.isEmpty then .error .verifyFailed
    else
      match takeTop heaps heap with
      | (none,_) => .error .emptyRange
      | (some top,heap) => .ok (top,heap)
  | some current =>
    match heap with
    | [] => .ok (current,[])
    | front :: rest =>
      if greater comp current front then
        match takeTop heaps (front :: rest) with
        | (none,_) => .error .emptyRange
        | (some top,heap) => .ok (top,heaps.pushHeap (heap++[current]))
      else .ok (current,front :: rest)

def MergeIterator.next (iterator : MergeIterator δ) : Except Fault (δ × MergeIterator δ) :=
  if iterator.remaining = 0 then .error .verifyFailed
  else
    match iterator.current with
    | none => .error .nullStream
    | some current =>
      if iterator.first then
        .ok (current.current,{iterator with remaining := iterator.remaining-1,first := false})
      else
        match choose heaps iterator.heap current.advance with
        | .error fault => .error fault
        | .ok (chosen,heap) =>
          .ok (chosen.current,{iterator with remaining := iterator.remaining-1,current := some chosen,heap := heap})

inductive Iterator (δ : Type) where
  | inMem (data : List δ)
  | merge (iterator : MergeIterator δ)

def Iterator.more : Iterator δ → Bool × Iterator δ
  | .inMem data => (!data.isEmpty,.inMem data)
  | .merge iterator => (iterator.more.1,.merge iterator.more.2)

def Iterator.next : Iterator δ → Except Fault (δ × Iterator δ)
  | .inMem [] => .error .emptyRange
  | .inMem (out :: data) => .ok (out,.inMem data)
  | .merge iterator =>
    match iterator.next heaps with
    | .error fault => .error fault
    | .ok (out,iterator) => .ok (out,.merge iterator)

-- The reader: while there is more it takes the next. No result means that the turns
-- allowed were not enough.
def readAll : Nat → Iterator δ → Option (Except Fault (List δ))
  | 0,_ => none
  | turns+1,iterator =>
    match iterator.more with
    | (false,_) => some (.ok [])
    | (true,iterator) =>
      match iterator.next heaps with
      | .error fault => some (.error fault)
      | .ok (out,iterator) =>
        match readAll turns iterator with
        | none => none
        | some (.error fault) => some (.error fault)
        | some (.ok outs) => some (.ok (out :: outs))

end

structure TopKSorter (δ : Type) where
  memUsed : Nat
  data : List δ
  iters : List (List δ)
  haveCutoff : Bool
  cutoff : δ
  worstSeen : δ
  worstCount : Nat
  lastMedian : δ
  medianCount : Nat

section
variable [Inhabited δ] (opts : SortOptions) (memUsage : δ → Nat) {comp : δ → δ → Int}
  (heaps : HeapAlgorithms δ (less comp))

def TopKSorter.start : TopKSorter δ := ⟨0,[],[],false,default,default,0,default,0⟩

def TopKSorter.make : Except Fault (TopKSorter δ) :=
  if opts.limit > 1 then .ok TopKSorter.start else .error .verifyFailed

-- The data is a max-heap if its size is the limit.
def TopKSorter.sort (sorter : TopKSorter δ) : TopKSorter δ :=
  if sorter.data.length = opts.limit then {sorter with data := heaps.sortHeap sorter.data}
  else {sorter with data := stableSort comp sorter.data}

def TopKSorter.pick (comp : δ → δ → Int) (sorter : TopKSorter δ) : TopKSorter δ :=
  {sorter with
    worstSeen :=
      if sorter.worstCount = 0 ∨ less comp sorter.worstSeen (sorter.data.getLastD default) = true then
        sorter.data.getLastD default
      else sorter.worstSeen
    lastMedian :=
      if sorter.medianCount = 0 then sorter.data.getD (sorter.data.length/2) default else sorter.lastMedian}

-- The upper bound is the furthest position with no worse element before it.
def TopKSorter.count (comp : δ → δ → Int) (sorter : TopKSorter δ) : TopKSorter δ :=
  {sorter with
    worstCount := sorter.worstCount+sorter.data.length
    medianCount := sorter.medianCount+(sorter.data.takeWhile fun item => !less comp sorter.lastMedian item).length}

def TopKSorter.promoteWorst (comp : δ → δ → Int) (sorter : TopKSorter δ) : TopKSorter δ :=
  if sorter.worstCount ≥ opts.limit then
    if sorter.haveCutoff = false ∨ less comp sorter.worstSeen sorter.cutoff = true then
      {sorter with cutoff := sorter.worstSeen,haveCutoff := true,worstCount := 0}
    else {sorter with worstCount := 0}
  else sorter

def TopKSorter.promoteMedian (comp : δ → δ → Int) (sorter : TopKSorter δ) : TopKSorter δ :=
  if sorter.medianCount ≥ opts.limit then
    if sorter.haveCutoff = false ∨ less comp sorter.lastMedian sorter.cutoff = true then
      {sorter with cutoff := sorter.lastMedian,haveCutoff := true,medianCount := 0}
    else {sorter with medianCount := 0}
  else sorter

def TopKSorter.updateCutoff (comp : δ → δ → Int) (sorter : TopKSorter δ) : TopKSorter δ :=
  (((sorter.pick comp).count comp).promoteWorst opts comp).promoteMedian opts comp

def TopKSorter.spill (sorter : TopKSorter δ) : Except Fault (TopKSorter δ) :=
  if sorter.data.isEmpty then .ok sorter
  else if opts.extSortAllowed = false then .error .sortExceededMemoryLimit
  else
    let sorted := (sorter.sort opts heaps).updateCutoff opts comp
    .ok {sorted with data := [],iters := sorted.iters++[sorted.data],memUsed := 0}

def TopKSorter.spillIfNeeded (sorter : TopKSorter δ) : Except Fault (TopKSorter δ) :=
  if sorter.memUsed > opts.maxMemoryUsageBytes then sorter.spill opts heaps else .ok sorter

def TopKSorter.add (sorter : TopKSorter δ) (contender : δ) : Except Fault (TopKSorter δ) :=
  if sorter.data.length < opts.limit then
    if sorter.haveCutoff = true ∧ less comp contender sorter.cutoff = false then .ok sorter
    else
      let data := sorter.data++[contender]
      TopKSorter.spillIfNeeded opts heaps {sorter with
        data := if data.length = opts.limit then heaps.makeHeap data else data
        memUsed := sorter.memUsed+memUsage contender}
  else if sorter.data.length ≠ opts.limit then .error .verifyFailed
  else
    match sorter.data with
    | [] => .error .emptyRange
    | front :: rest =>
      if less comp contender front = false then .ok sorter
      else
        TopKSorter.spillIfNeeded opts heaps {sorter with
          data := heaps.pushHeap ((heaps.popHeap (front :: rest)).dropLast++[contender])
          memUsed := sorter.memUsed+memUsage contender-memUsage front}

def TopKSorter.addAll (sorter : TopKSorter δ) : List δ → Except Fault (TopKSorter δ)
  | [] => .ok sorter
  | contender :: rest =>
    match sorter.add opts memUsage heaps contender with
    | .error fault => .error fault
    | .ok sorter => TopKSorter.addAll sorter rest

def TopKSorter.done (streams : HeapAlgorithms (Stream δ) (greater comp)) (sorter : TopKSorter δ) :
    Except Fault (Iterator δ) :=
  if sorter.iters.isEmpty then .ok (.inMem (sorter.sort opts heaps).data)
  else
    match sorter.spill opts heaps with
    | .error fault => .error fault
    | .ok sorter => .ok (.merge (MergeIterator.make streams opts sorter.iters))

def TopKSorter.sortAll (streams : HeapAlgorithms (Stream δ) (greater comp)) (input : List δ) : Except Fault (Iterator δ) :=
  match TopKSorter.make opts with
  | .error fault => .error fault
  | .ok sorter =>
    match sorter.addAll opts memUsage heaps input with
    | .error fault => .error fault
    | .ok sorter => sorter.done opts heaps streams

end

structure NoLimitSorter (δ : Type) where
  memUsed : Nat
  data : List δ
  iters : List (List δ)

section
variable (opts : SortOptions) (memUsage : δ → Nat) (comp : δ → δ → Int)

def NoLimitSorter.make : Except Fault (NoLimitSorter δ) :=
  if opts.limit = 0 then .ok ⟨0,[],[]⟩ else .error .verifyFailed

def NoLimitSorter.sort (sorter : NoLimitSorter δ) : NoLimitSorter δ := {sorter with data := stableSort comp sorter.data}

def NoLimitSorter.spill (sorter : NoLimitSorter δ) : Except Fault (NoLimitSorter δ) :=
  if sorter.data.isEmpty then .ok sorter
  else if opts.extSortAllowed = false then .error .sortExceededMemoryLimit
  else .ok {sorter with data := [],iters := sorter.iters++[(sorter.sort comp).data],memUsed := 0}

def NoLimitSorter.add (sorter : NoLimitSorter δ) (contender : δ) : Except Fault (NoLimitSorter δ) :=
  let sorter := {sorter with data := sorter.data++[contender],memUsed := sorter.memUsed+memUsage contender}
  if sorter.memUsed > opts.maxMemoryUsageBytes then sorter.spill opts comp else .ok sorter

def NoLimitSorter.addAll (sorter : NoLimitSorter δ) : List δ → Except Fault (NoLimitSorter δ)
  | [] => .ok sorter
  | contender :: rest =>
    match sorter.add opts memUsage comp contender with
    | .error fault => .error fault
    | .ok sorter => NoLimitSorter.addAll sorter rest

def NoLimitSorter.done (streams : HeapAlgorithms (Stream δ) (greater comp)) (sorter : NoLimitSorter δ) :
    Except Fault (Iterator δ) :=
  if sorter.iters.isEmpty then .ok (.inMem (sorter.sort comp).data)
  else
    match sorter.spill opts comp with
    | .error fault => .error fault
    | .ok sorter => .ok (.merge (MergeIterator.make streams opts sorter.iters))

def NoLimitSorter.sortAll (streams : HeapAlgorithms (Stream δ) (greater comp)) (input : List δ) : Except Fault (Iterator δ) :=
  match NoLimitSorter.make opts with
  | .error fault => .error fault
  | .ok sorter =>
    match sorter.addAll opts memUsage comp input with
    | .error fault => .error fault
    | .ok sorter => sorter.done opts comp streams

end

end Mongo.Sorter
