import Mathlib.Data.List.Sort
import Mathlib.Data.List.Forall2

namespace Foundations.Sorting
open List

structure Preorders (comp : α → α → Int) : Prop where
  flips : ∀ a b, comp a b < 0 ↔ 0 < comp b a
  transitive : ∀ a b c, comp a b ≤ 0 → comp b c ≤ 0 → comp a c ≤ 0

def AtMost (comp : α → α → Int) (a b : α) : Prop := comp a b ≤ 0

instance (comp : α → α → Int) : DecidableRel (AtMost comp) := fun a b => inferInstanceAs (Decidable (comp a b ≤ 0))

abbrev Sorted (comp : α → α → Int) (items : List α) : Prop := items.Pairwise (AtMost comp)

def stableSort (comp : α → α → Int) (items : List α) : List α := items.insertionSort (AtMost comp)

def upTo (comp : α → α → Int) (bound : α) (items : List α) : Nat :=
  items.countP fun item => decide (AtMost comp item bound)

-- What was dropped is not needed for the first so many: enough of what was kept is no worse.
structure Covers (comp : α → α → Int) (limit : Nat) (kept dropped : List α) : Prop where
  covered : ∀ item ∈ dropped, limit ≤ upTo comp item kept

section
variable {comp : α → α → Int} (ordered : Preorders comp)
include ordered

theorem preorders_refl : comp a a = 0 := by
  have flips := ordered.flips a a
  omega

theorem preorders_total (a b : α) : AtMost comp a b ∨ AtMost comp b a := by
  have flips := ordered.flips b a
  unfold AtMost
  omega

theorem not_atMost : ¬AtMost comp a b ↔ comp b a < 0 := by
  have flips := ordered.flips b a
  unfold AtMost
  omega

theorem less_atMost (less : comp a b < 0) (most : AtMost comp b c) : comp a c < 0 := by
  rw [← not_atMost ordered]
  intro back
  have below : comp b a ≤ 0 := ordered.transitive b c a most back
  have above := (ordered.flips a b).mp less
  omega

theorem equal_of_atMost (one : AtMost comp a b) (two : AtMost comp b a) : comp a b = 0 := by
  have flips := ordered.flips a b
  unfold AtMost at one two
  omega

theorem stableSort_sorted : Sorted comp (stableSort comp items) := by
  have _ : Std.Total (AtMost comp) := ⟨preorders_total ordered⟩
  have _ : IsTrans α (AtMost comp) := ⟨ordered.transitive⟩
  exact pairwise_insertionSort _ items

end

theorem stableSort_perm (comp : α → α → Int) (items : List α) : (stableSort comp items).Perm items :=
  perm_insertionSort _ items

section
variable {comp : α → α → Int}

theorem stableSort_first (ordered : Preorders comp) (front : ∀ item ∈ before, comp least item < 0)
    (back : ∀ item ∈ behind, AtMost comp least item) :
    stableSort comp (before++least :: behind) = least :: stableSort comp (before++behind) := by
  induction before with
  | nil => exact insertionSort_cons_of_forall_rel _ back
  | cons item before ih =>
    have later := ih (forall_mem_cons.mp front).2
    have less := (not_atMost ordered).mpr (front item (.head _))
    unfold stableSort at later ⊢
    rw [cons_append,insertionSort_cons,later,orderedInsert_of_not_le _ _ less]
    rfl

end

section
variable {comp : α → α → Int}

theorem upTo_append : upTo comp bound (first++second) = upTo comp bound first+upTo comp bound second :=
  countP_append

theorem upTo_perm (perm : items.Perm others) : upTo comp bound items = upTo comp bound others :=
  perm.countP_eq _

theorem upTo_mono (ordered : Preorders comp) (most : AtMost comp bound higher) :
    upTo comp bound items ≤ upTo comp higher items := by
  refine countP_mono_left ?_
  intro item _ within
  have within : AtMost comp item bound := by simpa using within
  exact decide_eq_true (ordered.transitive _ _ _ within most)

theorem upTo_all (most : ∀ item ∈ items, AtMost comp item bound) : upTo comp bound items = items.length := by
  refine countP_eq_length.mpr ?_
  intro item mem
  simpa using most item mem

theorem sorted_at (ordered : Preorders comp) (sorted : Sorted comp items) :
    ∀ i (inside : i < items.length), AtMost comp items[i] bound ↔ i < upTo comp bound items := by
  induction items with
  | nil => intro i inside; exact absurd inside (Nat.not_lt_zero _)
  | cons item items ih =>
    obtain ⟨least,rest⟩ := pairwise_cons.mp sorted
    intro i inside
    by_cases within : AtMost comp item bound
    · have count : upTo comp bound (item :: items) = upTo comp bound items+1 :=
        countP_cons_of_pos (by simpa using within)
      rw [count]
      cases i with
      | zero => simpa using within
      | succ i => simpa using ih rest i (by simpa using inside)
    have none : upTo comp bound (item :: items) = 0 := by
      refine countP_eq_zero.mpr ?_
      intro other mem
      rcases mem_cons.mp mem with rfl | later
      · simpa using within
      · intro low
        exact within (ordered.transitive _ _ _ (least other later) (of_decide_eq_true low))
    rw [none]
    have higher : AtMost comp item (item :: items)[i] := by
      cases i with
      | zero => exact (preorders_refl ordered).le
      | succ i => exact least _ (getElem_mem _)
    constructor
    · intro low
      exact absurd (ordered.transitive _ _ _ higher low) within
    · intro less
      exact absurd less (Nat.not_lt_zero _)

theorem covers_upTo (ordered : Preorders comp) (covers : Covers comp limit kept dropped) :
    upTo comp bound (dropped++kept) = upTo comp bound kept ∨ limit ≤ upTo comp bound kept := by
  by_cases any : ∃ item ∈ dropped, AtMost comp item bound
  · obtain ⟨item,mem,most⟩ := any
    exact .inr (Nat.le_trans (covers.covered item mem) (upTo_mono ordered most))
  left
  have none : upTo comp bound dropped = 0 := by
    refine countP_eq_zero.mpr ?_
    intro item mem low
    exact any ⟨item,mem,by simpa using low⟩
  rw [upTo_append,none,Nat.zero_add]

theorem covers_length (covers : Covers comp limit kept dropped) :
    min limit kept.length = min limit (dropped++kept).length := by
  cases dropped with
  | nil => rfl
  | cons item dropped =>
    have enough := covers.covered item (.head _)
    have most : upTo comp item kept ≤ kept.length := countP_le_length
    rw [length_append]
    omega

theorem covers_least (ordered : Preorders comp) (covers : Covers comp limit kept dropped)
    (keptSorted : Sorted comp first) (keptPerm : first.Perm kept)
    (allSorted : Sorted comp second) (allPerm : second.Perm (dropped++kept)) :
    List.Forall₂ (fun a b => comp a b = 0) (first.take limit) (second.take limit) := by
  have lengths := covers_length covers
  rw [← keptPerm.length_eq,← allPerm.length_eq] at lengths
  refine forall₂_iff_get.mpr ⟨by simpa using lengths,?_⟩
  intro i one two
  have low : i < limit := by simp at one; omega
  have here : i < first.length := by simp at one; omega
  have there : i < second.length := by simp at two; omega
  have agree : ∀ bound, AtMost comp first[i] bound ↔ AtMost comp second[i] bound := by
    intro bound
    rw [sorted_at ordered keptSorted i here,sorted_at ordered allSorted i there,upTo_perm keptPerm,upTo_perm allPerm]
    have more : upTo comp bound kept ≤ upTo comp bound (dropped++kept) := by
      rw [upTo_append]
      exact Nat.le_add_left _ _
    rcases covers_upTo ordered covers with same | enough
    · rw [same]
    · omega
  simp only [get_eq_getElem,getElem_take]
  exact equal_of_atMost ordered ((agree _).mpr (preorders_refl ordered).le) ((agree _).mp (preorders_refl ordered).le)

end

-- The heap algorithms of a standard library, for any way of arranging a heap.
structure HeapAlgorithms (α : Type) (less : α → α → Bool) where
  Heap : List α → Prop
  makeHeap : List α → List α
  pushHeap : List α → List α
  popHeap : List α → List α
  sortHeap : List α → List α
  greatest : ∀ front rest, Heap (front :: rest) → ∀ other ∈ rest, less front other = false
  made : ∀ items, Heap (makeHeap items) ∧ (makeHeap items).Perm items
  pushed : ∀ heap item, Heap heap → Heap (pushHeap (heap++[item])) ∧ (pushHeap (heap++[item])).Perm (heap++[item])
  popped : ∀ front rest, Heap (front :: rest) →
    ∃ heap, popHeap (front :: rest) = heap++[front] ∧ Heap heap ∧ heap.Perm rest
  sorted : ∀ heap, Heap heap → (sortHeap heap).Pairwise (fun a b => less b a = false) ∧ (sortHeap heap).Perm heap

section
variable {less : α → α → Bool}

def NotLess (less : α → α → Bool) (a b : α) : Prop := less a b = false

instance (less : α → α → Bool) : DecidableRel (NotLess less) := fun a b => inferInstanceAs (Decidable (less a b = false))

theorem notLess_sort (total : ∀ a b, less a b = false ∨ less b a = false)
    (transitive : ∀ a b c, less a b = false → less b c = false → less a c = false) (items : List α) :
    (items.insertionSort (NotLess less)).Pairwise (NotLess less) ∧ (items.insertionSort (NotLess less)).Perm items := by
  have _ : Std.Total (NotLess less) := ⟨total⟩
  have _ : IsTrans α (NotLess less) := ⟨transitive⟩
  exact ⟨pairwise_insertionSort _ items,perm_insertionSort _ items⟩

theorem notLess_reverse {heap : List α} (arranged : heap.Pairwise (NotLess less)) :
    heap.reverse.Pairwise (fun a b => less b a = false) ∧ heap.reverse.Perm heap :=
  ⟨pairwise_reverse.mpr arranged,reverse_perm heap⟩

theorem notLess_rest (arranged : (front :: rest).Pairwise (NotLess less)) :
    ∃ heap, (front :: rest).drop 1++(front :: rest).take 1 = heap++[front] ∧ heap.Pairwise (NotLess less) ∧ heap.Perm rest :=
  ⟨rest,rfl,(pairwise_cons.mp arranged).2,.refl rest⟩

def descending (total : ∀ a b, less a b = false ∨ less b a = false)
    (transitive : ∀ a b c, less a b = false → less b c = false → less a c = false) : HeapAlgorithms α less where
  Heap items := items.Pairwise (NotLess less)
  makeHeap items := items.insertionSort (NotLess less)
  pushHeap items := items.insertionSort (NotLess less)
  popHeap items := items.drop 1++items.take 1
  sortHeap items := items.reverse
  greatest _ _ arranged := (List.pairwise_cons.mp arranged).1
  made := notLess_sort total transitive
  pushed heap item _ := notLess_sort total transitive (heap++[item])
  popped _ _ := notLess_rest
  sorted _ := notLess_reverse

end

section
variable {comp : α → α → Int}

def equals (comp : α → α → Int) (item : α) (items : List α) : List α := items.filter fun other => decide (comp item other = 0)

theorem equals_append : equals comp item (first++second) = equals comp item first++equals comp item second :=
  filter_append first second

theorem equals_cons (head : α) : equals comp item (head :: items) =
    if comp item head = 0 then head :: equals comp item items else equals comp item items := by
  simp [equals,filter_cons]

theorem equals_mem : other ∈ equals comp item items ↔ other ∈ items ∧ comp item other = 0 := by
  simp [equals,mem_filter]

section
variable (ordered : Preorders comp)
include ordered

theorem equals_sorted : Sorted comp (equals comp item items) := by
  refine pairwise_of_forall_mem_list ?_
  intro a first b second
  have one := (equals_mem.mp first).2
  have two := (equals_mem.mp second).2
  have flips := ordered.flips item a
  exact ordered.transitive a item b (by omega) (by omega)

theorem equals_stableSort : equals comp item (stableSort comp items) = equals comp item items := by
  have inside : (equals comp item items).Sublist (stableSort comp items) :=
    sublist_insertionSort (equals_sorted ordered) filter_sublist
  have again := inside.filter fun other => decide (comp item other = 0)
  have same : (equals comp item items).filter (fun other => decide (comp item other = 0)) = equals comp item items := by
    simp [equals,filter_filter]
  rw [same] at again
  have lengths : (equals comp item items).length = (equals comp item (stableSort comp items)).length :=
    ((stableSort_perm comp items).symm.filter _).length_eq
  exact (again.eq_of_length lengths).symm

theorem sorted_unique (one : Sorted comp first) (two : Sorted comp second)
    (same : ∀ item, equals comp item first = equals comp item second) : first = second := by
  induction first generalizing second with
  | nil =>
    cases second with
    | nil => rfl
    | cons head rest =>
      have found := same head
      rw [equals_cons,if_pos (preorders_refl ordered)] at found
      cases found
  | cons head rest ih =>
    obtain ⟨least,rest'⟩ := pairwise_cons.mp one
    have found := same head
    rw [equals_cons,if_pos (preorders_refl ordered)] at found
    cases second with
    | nil => cases found
    | cons other others =>
      obtain ⟨least',others'⟩ := pairwise_cons.mp two
      have inside : head ∈ other :: others := (equals_mem.mp (found ▸ mem_cons_self)).1
      have back : other ∈ head :: rest := by
        have again := same other
        rw [equals_cons other,if_pos (preorders_refl ordered)] at again
        exact (equals_mem.mp (again ▸ mem_cons_self)).1
      have low : AtMost comp head other := by
        rcases mem_cons.mp back with rfl | later
        · exact (preorders_refl ordered).le
        · exact least other later
      have high : AtMost comp other head := by
        rcases mem_cons.mp inside with rfl | later
        · exact (preorders_refl ordered).le
        · exact least' head later
      rw [equals_cons,if_pos (equal_of_atMost ordered low high)] at found
      obtain ⟨rfl,_⟩ := cons.inj found
      have tails : ∀ item, equals comp item rest = equals comp item others := by
        intro item
        have whole := same item
        rw [equals_cons,equals_cons] at whole
        split at whole
        · exact (cons.inj whole).2
        · exact whole
      rw [ih rest' others' tails]

theorem stableSort_congr (same : ∀ item, equals comp item first = equals comp item second) :
    stableSort comp first = stableSort comp second := by
  refine sorted_unique ordered (stableSort_sorted ordered) (stableSort_sorted ordered) ?_
  intro item
  rw [equals_stableSort ordered,equals_stableSort ordered]
  exact same item

end

end

end Foundations.Sorting
