import Mathlib.Tactic.Ring
import SipxExternals.FoundationsSegments

namespace NetSnmp.BinaryArray
open Foundations.Segments List
variable {α κ : Type}

def scan (moves : α → Bool) (step : Int) (data : Int → α) : Nat → Int → Int
  | 0,i => i
  | steps+1,i => if moves (data i) then scan moves step data steps (i+step) else i

def scanUp (f : α → α → Int) (data : Int → α) (mid : α) (last i : Int) : Int :=
  scan (fun entry => f entry mid < 0) 1 data (last-i).toNat i

def scanDown (f : α → α → Int) (data : Int → α) (mid : α) (first j : Int) : Int :=
  scan (fun entry => f mid entry < 0) (-1) data (j-first).toNat j

structure Cursor (α : Type) where
  data : Int → α
  i : Int
  j : Int

-- The do loop. It goes on only when i has grown, so that the length of the segment is
-- enough fuel.
def partitionLoop (f : α → α → Int) (first last : Int) (mid : α) : Nat → Cursor α → Cursor α
  | 0,c => c
  | fuel+1,c =>
    let i := scanUp f c.data mid last c.i
    let j := scanDown f c.data mid first c.j
    if i < j then
      let c : Cursor α := ⟨exchange c.data i j,i+1,j-1⟩
      if c.i ≤ c.j then partitionLoop f first last mid fuel c else c
    else if i = j then ⟨c.data,i+1,j-1⟩
    else ⟨c.data,i,j⟩

def arrayQsort (f : α → α → Int) : Nat → (Int → α) → Int → Int → Int → α
  | 0,data,_,_ => data
  | fuel+1,data,first,last =>
    let c := partitionLoop f first last (data ((first+last)/2)) (last-first+1).toNat ⟨data,first,last⟩
    let data := if c.j > first then arrayQsort f fuel c.data first c.j else c.data
    if c.i < last then arrayQsort f fuel data c.i last else data

-- A container with its table: data holds the count elements, max_size the room for them.
structure Container (α : Type) where
  data : List α
  maxSize : Nat
  dirty : Bool
  sync : Nat
  unsorted : Bool
  allowDuplicates : Bool

def sortData (f : α → α → Int) (data : List α) : List α :=
  match data with
  | [] => []
  | [only] => [only]
  | head :: rest =>
    firsts (head :: rest).length
      (arrayQsort f (head :: rest).length (fun k => (head :: rest).getD k.toNat head) 0 ((head :: rest).length-1))

def sortArray (f : α → α → Int) (c : Container α) : Container α :=
  if c.unsorted then c
  else if c.dirty then { c with data := sortData f c.data, dirty := false, sync := c.sync+1 }
  else c

-- Position of the first element that is equal; none is -1.
def linearSearch (f : α → α → Int) (c : Container α) (val : α) : Option Nat :=
  if c.data.length = 0 then none
  else if !c.unsorted then none
  else c.data.findIdx? (f · val = 0)

structure Search where
  first : Nat
  middle : Nat
  result : Int

def searchLoop (f : α → α → Int) (data : List α) (val : α) : Nat → Nat → Search → Search
  | 0,_,s => s
  | fuel+1,len,s =>
    if len = 0 then s
    else
      let half := len/2
      let middle := s.first+half
      match data[middle]? with
      | none => s
      | some entry =>
        let result := f entry val
        if result < 0 then searchLoop f data val fuel (len-half-1) ⟨middle+1,middle,result⟩
        else if result = 0 then ⟨middle,middle,result⟩
        else searchLoop f data val fuel half ⟨s.first,middle,result⟩

def searchExit (f : α → α → Int) (data : List α) (val : α) (isExact : Bool) (s : Search) : Option Nat :=
  match data[s.first]? with
  | none => none
  | some entry =>
    let result := if s.first ≠ s.middle then f entry val else s.result
    if result = 0 then
      if isExact then some s.first
      else if s.first+1 = data.length then none else some (s.first+1)
    else if isExact then none else some s.first

def binarySearch (f : α → α → Int) (c : Container α) (val : α) (isExact : Bool) : Option Nat × Container α :=
  if c.data.length = 0 then (none,c)
  else if c.unsorted then (if isExact then linearSearch f c val else none,c)
  else
    let c := if c.dirty then sortArray f c else c
    (searchExit f c.data val isExact (searchLoop f c.data val c.data.length c.data.length ⟨0,0,0⟩),c)

def binaryArrayGet (f : α → α → Int) (c : Container α) (key : Option α) (isExact : Bool) : Option α × Container α :=
  if c.data.length = 0 then (none,c)
  else
    let c := if c.dirty then sortArray f c else c
    match key with
    | none => (c.data[0]?,c)
    | some key =>
      let found := binarySearch f c key isExact
      (found.1.bind (found.2.data[·]?),found.2)

-- The element that is saved, and the container. The return value is always 0.
def binaryArrayRemoveAt (c : Container α) (index : Nat) : Option α × Container α :=
  if c.data.length = 0 then (none,c)
  else
    let sync := if index ≠ c.data.length-1 then c.sync+1 else c.sync
    (c.data[index]?,{ c with data := c.data.eraseIdx index, sync := sync })

-- The return value 0 is true, and -1 is false.
def binaryArrayRemove (f : α → α → Int) (c : Container α) (key : α) : Bool × Option α × Container α :=
  if c.data.length = 0 then (true,none,c)
  else
    let c := if c.dirty then sortArray f c else c
    let found := binarySearch f c key true
    match found.1 with
    | none => (false,none,found.2)
    | some index => (true,binaryArrayRemoveAt found.2 index)

def binaryArrayForEach (f : α → α → Int) (c : Container α) (sort : Bool) : List α × Container α :=
  let c := if sort && c.dirty then sortArray f c else c
  (c.data,c)

-- The elements are visited only when a function is given.
def binaryArrayClear (c : Container α) (visit : Bool) : List α × Container α :=
  (if visit then c.data else [],{ c with data := [], dirty := false, sync := c.sync+1 })

def binaryArrayInsert (f : α → α → Int) (c : Container α) (entry : α) : Bool × Container α :=
  let got := if c.allowDuplicates then (none,c) else binaryArrayGet f c (some entry) true
  let wasDirty := !c.allowDuplicates && c.dirty
  let c := got.2
  if got.1.isSome then (false,c)
  else
    let maxSize := if c.maxSize ≤ c.data.length then (if c.maxSize > 0 then 2*c.maxSize else 10) else c.maxSize
    let sync := if wasDirty then c.sync else c.sync+1
    (true,{ c with data := c.data++[entry], maxSize := maxSize, dirty := true, sync := sync })

def startLoop (g : α → κ → Int) (data : List α) (val : κ) : Nat → Nat → Nat → Nat
  | 0,_,first => first
  | fuel+1,len,first =>
    if len = 0 then first
    else
      let half := len/2
      let middle := first+half
      match data[middle]? with
      | none => first
      | some entry =>
        if g entry val < 0 then startLoop g data val fuel (len-half-1) (middle+1)
        else startLoop g data val fuel half first

def binarySearchForStart (f : α → α → Int) (g : α → κ → Int) (c : Container α) (val : κ) : Option Nat × Container α :=
  if c.data.length = 0 then (none,c)
  else
    let c := if c.dirty then sortArray f c else c
    let first := startLoop g c.data val c.data.length c.data.length 0
    match c.data[first]? with
    | none => (none,c)
    | some entry => (if g entry val ≠ 0 then none else some first,c)

-- The loop takes the elements from start on up to the first that is not equal; none is NULL.
def binaryArrayGetSubset (f : α → α → Int) (g : α → κ → Int) (c : Container α) (key : κ) :
    Option (List α) × Container α :=
  if c.data.length = 0 then (none,c)
  else
    let c := if c.dirty then sortArray f c else c
    let found := binarySearchForStart f g c key
    match found.1 with
    | none => (none,found.2)
    | some start =>
      let more := ((found.2.data.drop (start+1)).takeWhile (g · key = 0)).length
      (some ((found.2.data.drop start).take (more+1)),found.2)

def containerGetBinaryArray : Container α := ⟨[],0,false,0,false,false⟩

-- An iterator over a container that is passed beside it. The position -1 is the size_t below
-- zero, which no container reaches.
structure Iterator where
  sync : Nat
  pos : Int

def iteratorPosition (c : Container α) (it : Iterator) (pos : Int) : Option α :=
  if c.sync ≠ it.sync then none
  else if c.data.length = 0 then none
  else if pos < 0 ∨ c.data.length ≤ pos then none
  else c.data[pos.toNat]?

def iteratorNext (c : Container α) (it : Iterator) : Option α × Iterator :=
  let it := { it with pos := it.pos+1 }
  (iteratorPosition c it it.pos,it)

def iteratorReset (f : α → α → Int) (c : Container α) : Iterator × Container α :=
  let c := if c.dirty then sortArray f c else c
  (⟨c.sync,0⟩,c)

def iteratorGet (f : α → α → Int) (c : Container α) : Iterator × Container α := iteratorReset f c

theorem shifted (i step : Int) (t : Nat) : i+step+step*t = i+step*(t+1 : Nat) := by
  push_cast
  ring

theorem scan_stops (moves : α → Bool) (data : Int → α) :
    ∀ (steps s : Nat) (i : Int),moves (data (i+step*s)) = false → s ≤ steps →
    ∃ t : Nat,t ≤ s ∧ scan moves step data steps i = i+step*t ∧
      (∀ u : Nat,u < t → moves (data (i+step*u)) = true) ∧ moves (data (i+step*t)) = false := by
  intro steps
  induction steps with
  | zero =>
    intro s i stop reach
    obtain rfl : s = 0 := by omega
    exact ⟨0,le_refl 0,by simp [scan],fun u low => absurd low (Nat.not_lt_zero u),stop⟩
  | succ steps ih =>
    intro s i stop reach
    rw [scan]
    cases here : moves (data i) with
    | false => exact ⟨0,Nat.zero_le s,by simp,fun u low => absurd low (Nat.not_lt_zero u),by simpa using here⟩
    | true =>
      cases s with
      | zero => simp [here] at stop
      | succ s =>
        obtain ⟨t,low,landed,passed,stopped⟩ := ih s (i+step) (by rw [shifted]; exact stop) (by omega)
        refine ⟨t+1,by omega,?_,fun u below => ?_,?_⟩
        · rw [← shifted,← landed]
          rfl
        · cases u with
          | zero => simpa using here
          | succ u =>
            rw [← shifted]
            exact passed u (by omega)
        · rw [← shifted]
          exact stopped

section
variable {f : α → α → Int} {data before : Int → α} {first last i j : Int} {mid : α} {c : Cursor α}

section
variable (order : TotalPreorder f)
include order

theorem scanUp_stops (stop : ∃ p,i ≤ p ∧ p ≤ last ∧ f mid (data p) ≤ 0) :
    i ≤ scanUp f data mid last i ∧ scanUp f data mid last i ≤ last ∧
    (∀ k,i ≤ k → k < scanUp f data mid last i → f (data k) mid < 0) ∧
    f mid (data (scanUp f data mid last i)) ≤ 0 := by
  obtain ⟨p,low,high,above⟩ := stop
  have position : i+1*((p-i).toNat : Int) = p := by omega
  have sign : ∀ x,f x mid < 0 ↔ 0 < f mid x := fun x => order.swap x mid
  obtain ⟨t,reach,landed,passed,stopped⟩ := scan_stops (fun entry => f entry mid < 0) data
    (last-i).toNat (p-i).toNat i (by rw [position,decide_eq_false_iff_not,sign]; omega) (by omega)
  rw [scanUp,landed]
  refine ⟨by omega,by omega,fun k low_k high_k => ?_,?_⟩
  · have step := passed (k-i).toNat (by omega)
    rw [show i+1*((k-i).toNat : Int) = k by omega] at step
    exact of_decide_eq_true step
  · rw [decide_eq_false_iff_not,sign] at stopped
    omega

theorem scanDown_stops (stop : ∃ q,first ≤ q ∧ q ≤ j ∧ f (data q) mid ≤ 0) :
    first ≤ scanDown f data mid first j ∧ scanDown f data mid first j ≤ j ∧
    (∀ k,scanDown f data mid first j < k → k ≤ j → f mid (data k) < 0) ∧
    f (data (scanDown f data mid first j)) mid ≤ 0 := by
  obtain ⟨q,low,high,below⟩ := stop
  have position : j+(-1)*((j-q).toNat : Int) = q := by omega
  have sign : ∀ x,f mid x < 0 ↔ 0 < f x mid := (order.swap mid)
  obtain ⟨t,reach,landed,passed,stopped⟩ := scan_stops (fun entry => f mid entry < 0) data
    (j-first).toNat (j-q).toNat j (by rw [position,decide_eq_false_iff_not,sign]; omega) (by omega)
  rw [scanDown,landed]
  refine ⟨by omega,by omega,fun k low_k high_k => ?_,?_⟩
  · have step := passed (j-k).toNat (by omega)
    rw [show j+(-1)*((j-k).toNat : Int) = k by omega] at step
    exact of_decide_eq_true step
  · rw [decide_eq_false_iff_not,sign] at stopped
    omega

-- What the do loop keeps: an element stops each scan, and either mid is still ahead or both ends have moved.
structure Partitioning (f : α → α → Int) (first last : Int) (mid : α) (before : Int → α) (c : Cursor α) : Prop where
  ordered : c.i ≤ c.j
  lower : first ≤ c.i
  upper : c.j ≤ last
  below : ∀ k,first ≤ k → k < c.i → f (c.data k) mid ≤ 0
  above : ∀ k,c.j < k → k ≤ last → f mid (c.data k) ≤ 0
  stopUp : ∃ p,c.i ≤ p ∧ p ≤ last ∧ f mid (c.data p) ≤ 0
  stopDown : ∃ q,first ≤ q ∧ q ≤ c.j ∧ f (c.data q) mid ≤ 0
  progress : (∃ p,c.i ≤ p ∧ p ≤ c.j ∧ f (c.data p) mid = 0) ∨ (first < c.i ∧ c.j < last)
  rearranged : Rearranged first last before c.data

structure Partitioned (f : α → α → Int) (first last : Int) (mid : α) (before : Int → α) (c : Cursor α) : Prop where
  crossed : c.j < c.i
  lower : first < c.i
  upper : c.j < last
  below : ∀ k,first ≤ k → k < c.i → f (c.data k) mid ≤ 0
  above : ∀ k,c.j < k → k ≤ last → f mid (c.data k) ≤ 0
  rearranged : Rearranged first last before c.data

omit order in
theorem exchange_left (data : Int → α) (i j : Int) : exchange data i j i = data j := by
  simp [exchange]

omit order in
theorem exchange_right (data : Int → α) (i j : Int) : exchange data i j j = data i := by
  rw [exchange]
  split
  · rename_i same
    rw [same]
  · exact if_pos rfl

omit order in
theorem exchange_other (not_left : k ≠ i) (not_right : k ≠ j) : exchange data i j k = data k := by
  rw [exchange,if_neg not_left,if_neg not_right]

theorem partitionLoop_partitioned :
    ∀ (fuel : Nat) (c : Cursor α),Partitioning f first last mid before c → c.j-c.i < fuel →
    Partitioned f first last mid before (partitionLoop f first last mid fuel c) := by
  intro fuel
  induction fuel with
  | zero =>
    intro c inv enough
    have ordered := inv.ordered
    omega
  | succ fuel ih =>
    intro c inv enough
    obtain ⟨up_low,up_high,up_passed,up_stop⟩ := scanUp_stops order inv.stopUp
    obtain ⟨down_low,down_high,down_passed,down_stop⟩ := scanDown_stops order inv.stopDown
    rw [partitionLoop]
    generalize scanUp f c.data mid last c.i = i at *
    generalize scanDown f c.data mid first c.j = j at *
    have lower := inv.lower
    have upper := inv.upper
    have below : ∀ k,first ≤ k → k < i → f (c.data k) mid ≤ 0 := by
      intro k low high
      by_cases seen : k < c.i
      · exact inv.below k low seen
      · exact (up_passed k (by omega) high).le
    have above : ∀ k,j < k → k ≤ last → f mid (c.data k) ≤ 0 := by
      intro k low high
      by_cases seen : c.j < k
      · exact inv.above k seen high
      · exact (down_passed k low (by omega)).le
    by_cases apart : i < j
    · have swapped_below : ∀ k,first ≤ k → k < i+1 → f (exchange c.data i j k) mid ≤ 0 := by
        intro k low high
        by_cases here : k = i
        · rw [here,exchange_left]
          exact down_stop
        · rw [exchange_other here (by omega)]
          exact below k low (by omega)
      have swapped_above : ∀ k,j-1 < k → k ≤ last → f mid (exchange c.data i j k) ≤ 0 := by
        intro k low high
        by_cases here : k = j
        · rw [here,exchange_right]
          exact up_stop
        · rw [exchange_other (by omega) here]
          exact above k (by omega) high
      have rearranged := rearranged_trans inv.rearranged (rearranged_exchange c.data (by omega) apart.le (by omega))
      simp only [if_pos apart]
      split
      · rename_i ordered
        exact ih _ ⟨ordered,by simp only; omega,by simp only; omega,swapped_below,swapped_above,
          ⟨j,by simp only; omega,by omega,swapped_above j (by omega) (by omega)⟩,
          ⟨i,by omega,by simp only; omega,swapped_below i (by omega) (by omega)⟩,
          .inr ⟨by simp only; omega,by simp only; omega⟩,rearranged⟩ (by simp only; omega)
      · rename_i crossed
        exact ⟨by simp only at *; omega,by simp only; omega,by simp only; omega,swapped_below,swapped_above,rearranged⟩
    simp only [if_neg apart]
    split
    · rename_i met
      subst met
      refine ⟨by simp only; omega,by simp only; omega,by simp only; omega,fun k low high => ?_,fun k low high => ?_,
        inv.rearranged⟩
      · by_cases here : k = i
        · rw [here]
          exact down_stop
        · exact below k low (by simp only at high; omega)
      · by_cases here : k = i
        · rw [here]
          exact up_stop
        · exact above k (by simp only at low; omega) high
    rename_i not_met
    exact ⟨by simp only; omega,by simp only; omega,by simp only; omega,below,above,inv.rearranged⟩

theorem partitioning_start (data : Int → α) (nonempty : first ≤ last) :
    Partitioning f first last (data ((first+last)/2)) data ⟨data,first,last⟩ := by
  have pivot := order.refl (data ((first+last)/2))
  exact ⟨nonempty,le_refl first,le_refl last,fun k low high => by simp only at high; omega,
    fun k low high => by simp only at low; omega,⟨(first+last)/2,by simp only; omega,by omega,pivot.le⟩,
    ⟨(first+last)/2,by omega,by simp only; omega,pivot.le⟩,
    .inl ⟨(first+last)/2,by simp only; omega,by simp only; omega,pivot⟩,rearranged_refl first last data⟩

theorem arrayQsort_sorts : ∀ (fuel : Nat) (data : Int → α) (first last : Int),first ≤ last → last-first < fuel →
    Rearranged first last data (arrayQsort f fuel data first last) ∧
    SortedOn f first last (arrayQsort f fuel data first last) := by
  intro fuel
  induction fuel with
  | zero =>
    intro data first last nonempty enough
    omega
  | succ fuel ih =>
    intro data first last nonempty enough
    have parts := partitionLoop_partitioned order (last-first+1).toNat ⟨data,first,last⟩
      (partitioning_start order data nonempty) (by simp only; omega)
    rw [arrayQsort]
    generalize partitionLoop f first last (data ((first+last)/2)) (last-first+1).toNat ⟨data,first,last⟩ = c at *
    have crossed := parts.crossed
    have lower := parts.lower
    have upper := parts.upper
    have half : ∀ (data : Int → α) (low high : Int),high-low < fuel → ∃ part : Int → α,
        (if low < high then arrayQsort f fuel data low high else data) = part ∧ Rearranged low high data part ∧
        SortedOn f low high part := by
      intro data low high shorter
      refine ⟨_,rfl,?_⟩
      split
      · exact ih data low high (by omega) shorter
      · exact ⟨rearranged_refl _ _ _,sortedOn_short order (by omega) _⟩
    obtain ⟨part,part_eq,left_moved,left_sorted⟩ := half c.data first c.j (by omega)
    simp only [gt_iff_lt,part_eq]
    obtain ⟨whole,whole_eq,right_moved,right_sorted⟩ := half part c.i last (by omega)
    rw [whole_eq]
    refine ⟨rearranged_trans parts.rearranged (rearranged_trans (rearranged_widen left_moved (by omega) (by omega))
      (rearranged_widen right_moved (by omega) (by omega))),?_⟩
    -- Each half keeps the bound by mid of the elements it rearranges, and leaves the others.
    refine sortedOn_glue order (data ((first+last)/2)) (sortedOn_congr left_sorted fun k low high => ?_) right_sorted ?_ ?_
    · exact rearranged_outside right_moved (by omega)
    · intro k low high
      rw [rearranged_outside right_moved (by omega)]
      have kept := rearranged_all (P := fun x => f x (data ((first+last)/2)) ≤ 0)
        (rearranged_widen left_moved (le_refl first) (show c.j ≤ c.i-1 by omega))
        fun k low high => parts.below k low (by omega)
      exact kept k low (by omega)
    have kept := rearranged_all (P := fun x => f (data ((first+last)/2)) x ≤ 0)
      (rearranged_widen right_moved (show c.j+1 ≤ c.i by omega) (le_refl last))
      fun k low high => by
        rw [rearranged_outside left_moved (by omega)]
        exact parts.above k (by omega) high
    intro k low high
    exact kept k (by omega) high

-- The sort on ints; none is an access outside of the bounds, an overflow, or fuel that is not enough.
def intMax : Int := 2147483647

def scanWithin (lo hi : Int) (moves : α → Bool) (step : Int) (data : Int → α) : Nat → Int → Option Int
  | 0,i => some i
  | steps+1,i =>
    if lo ≤ i ∧ i ≤ hi then if moves (data i) then scanWithin lo hi moves step data steps (i+step) else some i
    else none

def partitionWithin (lo hi : Int) (f : α → α → Int) (first last : Int) (mid : α) : Nat → Cursor α → Option (Cursor α)
  | 0,_ => none
  | fuel+1,c => do
    let i ← scanWithin lo hi (fun entry => f entry mid < 0) 1 c.data (last-c.i).toNat c.i
    let j ← scanWithin lo hi (fun entry => f mid entry < 0) (-1) c.data (c.j-first).toNat c.j
    if i < j then
      if lo ≤ i ∧ j ≤ hi then
        let c : Cursor α := ⟨exchange c.data i j,i+1,j-1⟩
        if c.i ≤ c.j then partitionWithin lo hi f first last mid fuel c else some c
      else none
    else if i = j then if i < intMax then some ⟨c.data,i+1,j-1⟩ else none
    else some ⟨c.data,i,j⟩

def qsortWithin (lo hi : Int) (f : α → α → Int) : Nat → (Int → α) → Int → Int → Option (Int → α)
  | 0,_,_,_ => none
  | fuel+1,data,first,last =>
    if first+last ≤ intMax ∧ lo ≤ (first+last).tdiv 2 ∧ (first+last).tdiv 2 ≤ hi then do
      let c ← partitionWithin lo hi f first last (data ((first+last).tdiv 2)) (last-first+1).toNat ⟨data,first,last⟩
      let data ← (if c.j > first then qsortWithin lo hi f fuel c.data first c.j else some c.data)
      if c.i < last then qsortWithin lo hi f fuel data c.i last else some data
    else none

omit order in
theorem scan_within (lo hi : Int) (moves : α → Bool) (step : Int) (data : Int → α) (steps : Nat) (i : Int)
    (inside : ∀ t : Nat, t < steps → lo ≤ i+step*t ∧ i+step*t ≤ hi) :
    scanWithin lo hi moves step data steps i = some (scan moves step data steps i) ∧
      ∃ t : Nat, t ≤ steps ∧ scan moves step data steps i = i+step*t := by
  induction steps generalizing i with
  | zero => exact ⟨rfl,0,le_rfl,by simp [scan]⟩
  | succ steps ih =>
    obtain ⟨same,t,few,landed⟩ := ih (i+step) fun t low => by rw [shifted]; exact inside (t+1) (by omega)
    rw [scanWithin,if_pos (by simpa using inside 0 (by omega)),scan]
    split
    · exact ⟨same,t+1,by omega,by rw [landed,shifted]⟩
    · exact ⟨rfl,0,by omega,by simp⟩

omit order in
theorem partition_within (low : lo ≤ first) (high : last ≤ hi) (narrow : hi < intMax) (fuel : Nat) (c : Cursor α) (lower : first ≤ c.i)
    (upper : c.j ≤ last) (ordered : c.i ≤ c.j) (enough : c.j-c.i < fuel) :
    partitionWithin lo hi f first last mid fuel c = some (partitionLoop f first last mid fuel c) := by
  induction fuel generalizing c with
  | zero => omega
  | succ fuel ih =>
    obtain ⟨up,s,few,stopped⟩ : _ = some (scanUp f c.data mid last c.i) ∧ ∃ s : Nat, s ≤ _ ∧ scanUp f c.data mid last c.i = _ :=
      scan_within lo hi (fun entry => f entry mid < 0) 1 c.data (last-c.i).toNat c.i fun t below => ⟨by omega,by omega⟩
    obtain ⟨down,t,less,landed⟩ : _ = some (scanDown f c.data mid first c.j) ∧ ∃ t : Nat, t ≤ _ ∧ scanDown f c.data mid first c.j = _ :=
      scan_within lo hi (fun entry => f mid entry < 0) (-1) c.data (c.j-first).toNat c.j fun t below => ⟨by omega,by omega⟩
    rw [partitionWithin,up,down,partitionLoop]
    generalize scanUp f c.data mid last c.i = i at *
    generalize scanDown f c.data mid first c.j = j at *
    simp only [Option.bind_eq_bind,Option.bind_some]
    split
    · rw [if_pos ⟨by omega,by omega⟩]
      split
      · rename_i more
        exact ih _ (by simp only; omega) (by simp only; omega) more (by simp only; omega)
      · rfl
    · split
      · rw [if_pos (by omega)]
      · rfl

theorem qsort_within (start : 0 ≤ lo) (narrow : hi ≤ 2^30) (fuel : Nat) (data : Int → α) (first last : Int) (low : lo ≤ first)
    (nonempty : first ≤ last) (high : last ≤ hi) (sum : first+last ≤ intMax) (enough : last-first < fuel) :
    qsortWithin lo hi f fuel data first last = some (arrayQsort f fuel data first last) := by
  induction fuel generalizing data first last with
  | zero => omega
  | succ fuel ih =>
    have parts := partitionLoop_partitioned order (last-first+1).toNat ⟨data,first,last⟩
      (partitioning_start order data nonempty) (by simp only; omega)
    have narrower : hi < intMax := lt_of_le_of_lt narrow (by decide)
    rw [qsortWithin,Int.tdiv_eq_ediv_of_nonneg (by omega),if_pos ⟨sum,by omega,by omega⟩,
      partition_within low high narrower _ _ le_rfl le_rfl nonempty (by simp only; omega),arrayQsort]
    generalize partitionLoop f first last (data ((first+last)/2)) (last-first+1).toNat ⟨data,first,last⟩ = c at *
    have lower := parts.lower
    have upper := parts.upper
    have left : (if c.j > first then qsortWithin lo hi f fuel c.data first c.j else some c.data) =
        some (if c.j > first then arrayQsort f fuel c.data first c.j else c.data) := by
      split
      · exact ih c.data first c.j low (by omega) (by omega) (by omega) (by omega)
      · rfl
    simp only [Option.bind_eq_bind,Option.bind_some,left]
    split
    · exact ih _ c.i last (by omega) (by omega) high (by unfold intMax; omega) (by omega)
    · rfl

omit order in
theorem scanWithin_still (still : moves (data i) = false) (ran : scanWithin lo hi moves step data steps i = some k) : i = k := by
  cases steps with
  | zero => exact Option.some.inj ran
  | succ steps => simp_all [scanWithin]

-- Among equal elements no scan moves: the places meet in the middle.
theorem partition_constant (entry : α) (fuel : Nat) (i j : Int) (ordered : i ≤ j)
    (ran : partitionWithin lo hi f first last entry fuel ⟨fun _ => entry,i,j⟩ = some c) :
    c.data = (fun _ => entry) ∧ c.i+c.j = i+j ∧ c.i ≤ c.j+2 := by
  induction fuel generalizing i j with
  | zero => cases ran
  | succ fuel ih =>
    have still : decide (f entry entry < 0) = false := by simp [order.refl]
    obtain ⟨up,upwards,rest⟩ := Option.bind_eq_some_iff.mp ran
    obtain ⟨down,downwards,rest⟩ := Option.bind_eq_some_iff.mp rest
    obtain rfl := scanWithin_still still upwards
    obtain rfl := scanWithin_still still downwards
    have same : exchange (fun _ => entry) i j = fun _ => entry := by
      funext k
      simp [exchange]
    dsimp only at rest
    rw [same] at rest
    split_ifs at rest with apart inside more meet
    · have later := ih _ _ more rest
      exact ⟨later.1,by omega,later.2.2⟩
    · cases rest
      exact ⟨rfl,by dsimp only; omega,by dsimp only; omega⟩
    · cases rest
      exact ⟨rfl,by dsimp only; omega,by dsimp only; omega⟩
    · omega

theorem qsort_constant (entry : α) (fuel : Nat) (first last : Int) (nonempty : first ≤ last)
    (ran : qsortWithin lo hi f fuel (fun _ => entry) first last = some sorted) :
    sorted = (fun _ => entry) ∧ first+last ≤ intMax ∧ last ≤ 2^30 := by
  induction fuel generalizing first last sorted with
  | zero => cases ran
  | succ fuel ih =>
    rw [qsortWithin] at ran
    split at ran
    · rename_i inside
      obtain ⟨c,parted,rest⟩ := Option.bind_eq_some_iff.mp ran
      obtain ⟨half,left,right⟩ := Option.bind_eq_some_iff.mp rest
      obtain ⟨same,sum,near⟩ := partition_constant order entry _ _ _ nonempty parted
      rw [same] at left
      obtain rfl : half = fun _ => entry := by
        split at left
        · exact (ih _ _ (by omega) left).1
        · exact (Option.some.inj left).symm
      have bound := inside.1
      split at right
      · obtain ⟨kept,_,small⟩ := ih _ _ (by omega) right
        exact ⟨kept,bound,small⟩
      · refine ⟨(Option.some.inj right).symm,bound,?_⟩
        unfold intMax at bound
        omega
    · cases ran

theorem arrayQsort_inside [Nonempty α] (first last : Int) (start : 0 ≤ first) (nonempty : first ≤ last) (fuel : Nat)
    (enough : last-first < fuel) : (∀ data : Int → α,
      qsortWithin first last f fuel data first last = some (arrayQsort f fuel data first last) ∧
      Rearranged first last data (arrayQsort f fuel data first last) ∧
      SortedOn f first last (arrayQsort f fuel data first last)) ↔ first+last ≤ intMax ∧ last ≤ 2^30 := by
  constructor
  · intro inside
    obtain ⟨entry⟩ := ‹Nonempty α›
    exact (qsort_constant order entry fuel first last nonempty (inside fun _ => entry).1).2
  · intro both data
    exact ⟨qsort_within order start both.2 fuel data first last le_rfl nonempty le_rfl both.1 enough,
      arrayQsort_sorts order fuel data first last nonempty enough⟩

omit order in
theorem descending_inside : (qsortWithin 0 3 (fun a b : Int => a-b) 4 (fun k => -k) 0 3).isSome = true ∧
    SortedOn (fun a b : Int => a-b) 0 3 (arrayQsort (fun a b => a-b) 4 (fun k => -k) 0 3) := by
  obtain ⟨inside,_,sorted⟩ := (arrayQsort_inside difference_preorder 0 3 le_rfl (by decide) 4 (by decide)).mpr (by decide) fun k => -k
  exact ⟨by rw [inside]; rfl,sorted⟩

omit order in
theorem middle_overflows : qsortWithin 0 (2^30+1) (fun a b : Int => a-b) (2^30+2) (fun _ => 0) 0 (2^30+1) = none :=
  Option.eq_none_iff_forall_ne_some.mpr fun _ ran =>
    absurd (qsort_constant difference_preorder 0 _ _ _ (by decide) ran).2.2 (by decide)

theorem sortData_sorts (data : List α) :
    List.Perm (sortData f data) data ∧ (sortData f data).Pairwise fun a b => f a b ≤ 0 := by
  match data with
  | [] => exact ⟨.refl [],.nil⟩
  | [only] => exact ⟨.refl [only],pairwise_singleton _ only⟩
  | head :: next :: rest =>
    rw [sortData]
    · generalize whole : head :: next :: rest = entries
      have long : 0 < entries.length := by simp [← whole]
      obtain ⟨moved,sorted⟩ := arrayQsort_sorts order entries.length (fun k => entries.getD k.toNat head) 0
        (entries.length-1) (by omega) (by omega)
      have same := firsts_perm (n := entries.length) moved (by omega)
      rw [firsts_getD] at same
      exact ⟨same,firsts_sorted sorted (by omega)⟩
    · simp

end

end

section
variable {f : α → α → Int} {c : Container α}

structure Sound (f : α → α → Int) (c : Container α) : Prop where
  sorting : c.unsorted = false
  unique : c.allowDuplicates = false
  distinct : Distinct f c.data
  clean : c.dirty = false → Ascending f c.data
  room : c.data.length ≤ c.maxSize

theorem sort_if_dirty (f : α → α → Int) (c : Container α) : (if c.dirty then sortArray f c else c) = sortArray f c := by
  cases dirty : c.dirty with
  | true => rfl
  | false => simp [sortArray,dirty]

theorem sortArray_clean (f : α → α → Int) (clean : c.dirty = false) : sortArray f c = c := by
  simp [sortArray,clean]

structure Settled (f : α → α → Int) (c settled : Container α) : Prop where
  clean : settled.dirty = false
  ascending : Ascending f settled.data
  same : List.Perm settled.data c.data
  sound : Sound f settled

theorem sortArray_settled (order : TotalPreorder f) (sound : Sound f c) : Settled f c (sortArray f c) := by
  cases dirty : c.dirty with
  | false =>
    rw [sortArray_clean f dirty]
    exact ⟨dirty,sound.clean dirty,.refl c.data,sound⟩
  | true =>
    obtain ⟨same,sorted⟩ := sortData_sorts order c.data
    have distinct := distinct_perm order same.symm sound.distinct
    have ascending := ascending_of_sorted sorted distinct
    simp only [sortArray,sound.sorting,dirty,Bool.false_eq_true,if_false,if_true]
    exact ⟨rfl,ascending,same,⟨rfl,sound.unique,distinct,fun _ => ascending,same.length_eq ▸ sound.room⟩⟩

-- A fresh iterator is in step with its container, and next moves it before it reads.
theorem iteratorNext_synced (synced : c.sync = it.sync) (low : -1 ≤ it.pos) :
    iteratorNext c it = (c.data[(it.pos+1).toNat]?,⟨it.sync,it.pos+1⟩) := by
  simp only [iteratorNext,iteratorPosition,synced,ne_eq,not_true,if_false]
  split
  · rename_i empty
    rw [getElem?_eq_none (by omega)]
  split
  · rename_i beyond
    rw [getElem?_eq_none (by omega)]
  · rfl

end

def iteratorFirst (c : Container α) (it : Iterator) : Option α := iteratorPosition c it 0

def iteratorRemove (c : Container α) (it : Iterator) : Container α × Iterator :=
  ((binaryArrayRemoveAt c it.pos.toNat).2,⟨it.sync+1,it.pos-1⟩)

def sweep (chosen : α → Bool) : Nat → Option α → Container α → Iterator → List α × Container α
  | fuel+1,some entry,c,it =>
    let (c,it) := if chosen entry then iteratorRemove c it else (c,it)
    let (next,it) := iteratorNext c it
    let (visited,c) := sweep chosen fuel next c it
    (entry :: visited,c)
  | _,_,c,_ => ([],c)

theorem sweep_rest (chosen : α → Bool) : ∀ fuel rest kept (c : Container α) (it : Iterator),rest.length < fuel →
    c.data = kept++rest → c.sync = it.sync → it.pos = kept.length →
    (sweep chosen fuel rest.head? c it).1 = rest ∧
      (sweep chosen fuel rest.head? c it).2.data = kept++rest.filter fun entry => !chosen entry
  | fuel+1,[],kept,c,it,_,split,_,_ => ⟨rfl,by simpa [sweep] using split⟩
  | fuel+1,entry :: rest,kept,c,it,enough,split,synced,position => by
    have enough : rest.length < fuel := by simpa using enough
    simp only [head?_cons,sweep,filter_cons]
    cases remove : chosen entry with
    | false =>
      have later := sweep_rest chosen fuel rest (kept++[entry]) c ⟨it.sync,it.pos+1⟩ enough (by simpa using split) synced
        (by simp [position])
      have read : c.data[(it.pos+1).toNat]? = rest.head? := by
        rw [split,show (it.pos+1).toNat = kept.length+1 by omega]
        simp [getElem?_append_right,head?_eq_getElem?]
      simpa [iteratorNext_synced synced (by omega),read] using later
    | true =>
      have erased : (iteratorRemove c it).1.data = kept++rest := by
        simp [iteratorRemove,binaryArrayRemoveAt,split,position,eraseIdx_append_of_length_le]
      cases rest with
      | nil =>
        -- The last element does not change the container's count, so the iterator is out of step.
        have ended : iteratorNext (iteratorRemove c it).1 (iteratorRemove c it).2 = (none,⟨it.sync+1,it.pos⟩) := by
          simp [iteratorNext,iteratorPosition,iteratorRemove,binaryArrayRemoveAt,split,position,synced]
        cases fuel with
        | zero => simp at enough
        | succ fuel => simpa [ended,sweep] using erased
      | cons next rest =>
        have stepped : (iteratorRemove c it).1.sync = (iteratorRemove c it).2.sync := by
          simp [iteratorRemove,binaryArrayRemoveAt,split,position,synced]
        have later := sweep_rest chosen fuel (next :: rest) kept (iteratorRemove c it).1 ⟨it.sync+1,it.pos⟩ enough erased stepped
          position
        have moved : iteratorNext (iteratorRemove c it).1 (iteratorRemove c it).2 = (some next,⟨it.sync+1,it.pos⟩) := by
          rw [iteratorNext_synced stepped (by simp only [iteratorRemove]; omega),erased]
          simp [iteratorRemove,position]
        simpa [moved] using later

theorem sortData_length (f : α → α → Int) : ∀ data : List α, (sortData f data).length = data.length
  | [] => rfl
  | [_] => rfl
  | _ :: _ :: _ => firsts_length _ _

theorem sortArray_length (f : α → α → Int) (c : Container α) : (sortArray f c).data.length = c.data.length := by
  unfold sortArray
  split
  · rfl
  split
  · exact sortData_length f c.data
  · rfl

def sampleArray : Container Int := ⟨[2,5,9],4,false,1,false,false⟩

theorem sampleArray_sound : Sound (fun a b : Int => a-b) sampleArray :=
  ⟨rfl,rfl,by simp [sampleArray,Distinct],by simp [sampleArray,Ascending],by decide⟩

end NetSnmp.BinaryArray
