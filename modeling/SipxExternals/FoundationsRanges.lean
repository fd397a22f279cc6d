import Mathlib.Order.Antisymmetrization
import SipxExternals.FoundationsSegments

namespace Foundations.Ranges
open Segments
open List (mem_cons)

section
variable {α : Type} {compare : α → α → Int}

-- Keys that compare as equal have one rank, so ranks are linearly ordered
-- where the keys themselves are only preordered.
structure Ranked [LinearOrder β] (compare : α → α → Int) (rank : α → β) : Prop where
  lt : ∀ a b, compare a b < 0 ↔ rank a < rank b
  le : ∀ a b, compare a b ≤ 0 ↔ rank a ≤ rank b

@[reducible]
def preorderOf (order : TotalPreorder compare) : Preorder α where
  le a b := compare a b ≤ 0
  lt a b := compare a b < 0
  le_refl a := by
    have same := order.refl a
    show compare a a ≤ 0
    omega
  le_trans := order.trans
  lt_iff_le_not_ge a b := by
    have sign := order.swap a b
    show compare a b < 0 ↔ compare a b ≤ 0 ∧ ¬compare b a ≤ 0
    omega

theorem exists_rank (order : TotalPreorder compare) :
    ∃ (β : Type) (_ : LinearOrder β) (rank : α → β), Ranked compare rank := by
  let _ := preorderOf order
  have _ : @Std.Total α (· ≤ ·) := ⟨fun a b => by
    have sign := order.swap b a
    show compare a b ≤ 0 ∨ compare b a ≤ 0
    omega⟩
  exact ⟨Antisymmetrization α (· ≤ ·),inferInstance,toAntisymmetrization (· ≤ ·),fun _ _ => .rfl,fun _ _ => .rfl⟩

variable {β : Type} [LinearOrder β] {rank : α → β}

section
variable (ranked : Ranked compare rank) (a b : α)
include ranked a b

theorem Ranked.gt : 0 < compare a b ↔ rank b < rank a := by
  rw [← not_le,← not_le,ranked.le]

theorem Ranked.ge : 0 ≤ compare a b ↔ rank b ≤ rank a := by
  rw [← not_lt,← not_lt,ranked.lt]

theorem Ranked.eq : compare a b = 0 ↔ rank a = rank b := by
  have low := ranked.le a b
  have high := ranked.ge a b
  constructor
  · intro zero
    exact le_antisymm (low.mp (by omega)) (high.mp (by omega))
  intro same
  have below := low.mpr (le_of_eq same)
  have above := high.mpr (le_of_eq same.symm)
  omega

end

end

section
variable {α β : Type} [LinearOrder β] {rank : α → β}

def Within (rank : α → β) (range : α × α) (key : α) : Prop :=
  rank range.1 ≤ rank key ∧ rank key < rank range.2

def Covers (rank : α → β) (ranges : List (α × α)) (key : α) : Prop :=
  ∃ range ∈ ranges, Within rank range key

structure Ranged (rank : α → β) (ranges : List (α × α)) : Prop where
  proper : ∀ range ∈ ranges, rank range.1 < rank range.2
  apart : ranges.Pairwise fun left right => rank left.2 ≤ rank right.1

theorem ranged_nil : Ranged rank [] := ⟨by simp,.nil⟩

theorem ranged_append : Ranged rank (before++after) ↔
      Ranged rank before ∧ Ranged rank after ∧ ∀ left ∈ before, ∀ right ∈ after, rank left.2 ≤ rank right.1 := by
  constructor
  · intro ranged
    obtain ⟨first,second,between⟩ := List.pairwise_append.mp ranged.apart
    exact ⟨⟨(List.forall_mem_append.mp ranged.proper).1,first⟩,
      ⟨(List.forall_mem_append.mp ranged.proper).2,second⟩,between⟩
  rintro ⟨first,second,between⟩
  refine ⟨?_,List.pairwise_append.mpr ⟨first.apart,second.apart,between⟩⟩
  intro range inside
  cases List.mem_append.mp inside with
  | inl inside => exact first.proper range inside
  | inr inside => exact second.proper range inside

theorem ranged_cons : Ranged rank (range :: rest) ↔
      rank range.1 < rank range.2 ∧ Ranged rank rest ∧ ∀ right ∈ rest, rank range.2 ≤ rank right.1 := by
  constructor
  · intro ranged
    obtain ⟨ends,apart⟩ := List.pairwise_cons.mp ranged.apart
    exact ⟨ranged.proper range (.head _ ..),⟨(List.forall_mem_cons.mp ranged.proper).2,apart⟩,ends⟩
  rintro ⟨proper,ranged,ends⟩
  refine ⟨?_,List.pairwise_cons.mpr ⟨ends,ranged.apart⟩⟩
  intro other inside
  cases mem_cons.mp inside with
  | inl same => exact same ▸ proper
  | inr inside => exact ranged.proper other inside

structure Placed (rank : α → β) (before after : List (α × α)) (range : α × α) : Prop where
  low : ∀ other ∈ before, rank other.2 ≤ rank range.1
  high : ∀ other ∈ after, rank range.2 ≤ rank other.1

theorem ranged_sublist (ranged : Ranged rank ranges) (part : fewer.Sublist ranges) : Ranged rank fewer :=
  ⟨fun range mem => ranged.proper range (part.mem mem),ranged.apart.sublist part⟩

theorem ranged_middle : Ranged rank (before++range :: after) ↔
      Ranged rank (before++after) ∧ rank range.1 < rank range.2 ∧ Placed rank before after range := by
  rw [ranged_append,ranged_append,ranged_cons]
  constructor
  · rintro ⟨left,⟨proper,right,later⟩,between⟩
    exact ⟨⟨left,right,fun first mem second after => between first mem second (.tail _ after)⟩,proper,
      fun other mem => between other mem range (.head _),later⟩
  rintro ⟨⟨left,right,between⟩,proper,placed⟩
  refine ⟨left,⟨proper,right,placed.high⟩,?_⟩
  intro first mem second later
  cases mem_cons.mp later with
  | inl same => exact same ▸ placed.low first mem
  | inr later => exact between first mem second later

@[simp]
theorem covers_nil : ¬Covers rank [] key := by
  simp [Covers]

@[simp]
theorem covers_cons : Covers rank (range :: rest) key ↔ Within rank range key ∨ Covers rank rest key := by
  simp [Covers]

@[simp]
theorem covers_append : Covers rank (before++after) key ↔ Covers rank before key ∨ Covers rank after key := by
  simp only [Covers,List.mem_append]
  constructor
  · rintro ⟨range,inside | inside,within⟩
    · exact .inl ⟨range,inside,within⟩
    · exact .inr ⟨range,inside,within⟩
  · rintro (⟨range,inside,within⟩ | ⟨range,inside,within⟩)
    · exact ⟨range,.inl inside,within⟩
    · exact ⟨range,.inr inside,within⟩

theorem findIdx_split {before : List γ} (low : ∀ entry ∈ before, p entry = false)
    (high : ∀ entry ∈ after, p entry = true) : (before++after).findIdx p = before.length := by
  have none : before.findIdx p = before.length := List.findIdx_eq_length.mpr low
  rw [List.findIdx_append,none,if_neg (lt_irrefl _)]
  cases after with
  | nil => simp
  | cons entry rest => simp [List.findIdx_cons,high entry (.head _ ..)]

theorem overlap_split (ranged : Ranged rank ranges) (lower upper : α) :
    ∃ before inside after, ranges = before++(inside++after) ∧ (∀ range ∈ before, rank range.2 ≤ rank lower) ∧
      (∀ range ∈ inside, rank lower < rank range.2 ∧ rank range.1 < rank upper) ∧
      (∀ range ∈ after, rank lower < rank range.2 ∧ rank upper ≤ rank range.1) := by
  induction ranges with
  | nil => exact ⟨[],[],[],rfl,by simp,by simp,by simp⟩
  | cons range rest ih =>
    obtain ⟨proper,ranged,ends⟩ := ranged_cons.mp ranged
    have beyond : ∀ right ∈ rest, rank range.2 < rank right.2 := fun right mem =>
      lt_of_le_of_lt (ends right mem) (ranged.proper right mem)
    obtain ⟨before,inside,after,rfl,low,middle,high⟩ := ih ranged
    by_cases first : rank range.2 ≤ rank lower
    · refine ⟨range :: before,inside,after,rfl,?_,middle,high⟩
      intro other mem
      cases mem_cons.mp mem with
      | inl same => exact same ▸ first
      | inr mem => exact low other mem
    have nothing : before = [] := by
      cases before with
      | nil => rfl
      | cons other more =>
        have past := low other (.head _ ..)
        have later := beyond other (by simp)
        exact absurd (le_trans (le_of_lt later) past) first
    subst nothing
    by_cases second : rank range.1 < rank upper
    · refine ⟨[],range :: inside,after,rfl,by simp,?_,high⟩
      intro other mem
      cases mem_cons.mp mem with
      | inl same => exact same ▸ ⟨not_le.mp first,second⟩
      | inr mem => exact middle other mem
    have nothing : inside = [] := by
      cases inside with
      | nil => rfl
      | cons other more =>
        have below := (middle other (.head _ ..)).2
        have later := ends other (by simp)
        exact absurd (lt_of_lt_of_le proper (le_trans later (le_of_lt below))) second
    subst nothing
    refine ⟨[],[],range :: after,rfl,by simp,by simp,?_⟩
    intro other mem
    cases mem_cons.mp mem with
    | inl same => exact same ▸ ⟨not_le.mp first,not_lt.mp second⟩
    | inr mem => exact high other mem

theorem start_split (ranged : Ranged rank ranges) (key : α) :
    ∃ before after, ranges = before++after ∧ (∀ range ∈ before, rank range.1 ≤ rank key) ∧
      (∀ range ∈ after, rank key < rank range.1) := by
  induction ranges with
  | nil => exact ⟨[],[],rfl,by simp,by simp⟩
  | cons range rest ih =>
    obtain ⟨proper,ranged,ends⟩ := ranged_cons.mp ranged
    obtain ⟨before,after,rfl,low,high⟩ := ih ranged
    by_cases first : rank range.1 ≤ rank key
    · refine ⟨range :: before,after,rfl,?_,high⟩
      intro other mem
      cases mem_cons.mp mem with
      | inl same => exact same ▸ first
      | inr mem => exact low other mem
    refine ⟨[],range :: (before++after),rfl,by simp,?_⟩
    intro other mem
    cases mem_cons.mp mem with
    | inl same => exact same ▸ not_le.mp first
    | inr mem => exact lt_trans (not_le.mp first) (lt_of_lt_of_le proper (ends other mem))

theorem not_covers_later (high : ∀ range ∈ after, rank key < rank range.1) : ¬Covers rank after key := by
  rintro ⟨range,mem,starts,_⟩
  exact absurd starts (not_le.mpr (high range mem))

theorem covers_last {earlier : List (α × α)} (ranged : Ranged rank (earlier.concat last))
    (starts : rank last.1 ≤ rank key) : Covers rank (earlier.concat last) key ↔ Within rank last key := by
  rw [List.concat_eq_append] at ranged ⊢
  obtain ⟨_,_,between⟩ := ranged_append.mp ranged
  rw [covers_append,covers_cons]
  constructor
  · rintro (⟨range,mem,_,ends⟩ | within | nothing)
    · exact absurd (lt_of_lt_of_le ends (between range mem last (List.mem_singleton.mpr rfl))) (not_lt.mpr starts)
    · exact within
    · exact absurd nothing covers_nil
  · intro within
    exact .inr (.inl within)

theorem placed_alone (placed : Placed rank before after range)
    (within : Within rank range key) : ¬Covers rank before key ∧ ¬Covers rank after key := by
  obtain ⟨low,high⟩ := within
  refine ⟨?_,?_⟩
  · rintro ⟨other,mem,_,ends⟩
    exact absurd (lt_of_lt_of_le ends (placed.low other mem)) (not_lt.mpr low)
  · rintro ⟨other,mem,starts,_⟩
    exact absurd (le_trans (placed.high other mem) starts) (not_le.mpr high)

theorem within_joined (left : rank a ≤ rank b) (right : rank b ≤ rank c) :
    Within rank (a,c) key ↔ Within rank (a,b) key ∨ Within rank (b,c) key := by
  constructor
  · rintro ⟨starts,ends⟩
    by_cases first : rank key < rank b
    · exact .inl ⟨starts,first⟩
    · exact .inr ⟨not_lt.mp first,ends⟩
  · rintro (⟨starts,ends⟩ | ⟨starts,ends⟩)
    · exact ⟨starts,lt_of_lt_of_le ends right⟩
    · exact ⟨le_trans left starts,ends⟩

theorem within_congr (starts : rank range.1 = rank other.1) (ends : rank range.2 = rank other.2) :
    Within rank range key ↔ Within rank other key := by
  simp [Within,starts,ends]

theorem not_within_both (ranged : Ranged rank ranges) :
    ranges.Pairwise fun left right => ∀ key, ¬(Within rank left key ∧ Within rank right key) := by
  refine ranged.apart.imp ?_
  rintro left right apart key ⟨⟨_,ends⟩,starts,_⟩
  exact absurd (lt_of_lt_of_le ends apart) (not_lt.mpr starts)

end

section
variable {α : Type} {le : α → α → Prop} {free S T : α → Prop}

def Convex (le : α → α → Prop) (S : α → Prop) : Prop :=
  ∀ a b c, S a → S c → le a b → le b c → S b

structure MaximalInterval (le : α → α → Prop) (free S : α → Prop) : Prop where
  inhabited : ∃ key, S key
  convex : Convex le S
  inside : ∀ key, S key → free key
  maximal : ∀ T, Convex le T → (∀ key, T key → free key) → (∀ key, S key → T key) → ∀ key, T key → S key

theorem convex_union (total : ∀ a b, le a b ∨ le b a) (first : Convex le S) (second : Convex le T) (left : S key) (right : T key) :
    Convex le fun a => S a ∨ T a := by
  rintro a b c (sa | ta) (sc | tc) low high
  · exact .inl (first a b c sa sc low high)
  · cases total b key with
    | inl below => exact .inl (first a b key sa left low below)
    | inr above => exact .inr (second key b c right tc above high)
  · cases total b key with
    | inl below => exact .inr (second a b key ta right low below)
    | inr above => exact .inl (first key b c left sc above high)
  · exact .inr (second a b c ta tc low high)

theorem maximal_unique (total : ∀ a b, le a b ∨ le b a) (first : MaximalInterval le free S) (second : MaximalInterval le free T)
    (left : S key) (right : T key) : S other ↔ T other := by
  have convex := convex_union total first.convex second.convex left right
  have inside : ∀ key, S key ∨ T key → free key := by
    rintro key (mem | mem)
    · exact first.inside key mem
    · exact second.inside key mem
  constructor
  · intro mem
    exact second.maximal _ convex inside (fun _ => .inr) other (.inl mem)
  · intro mem
    exact first.maximal _ convex inside (fun _ => .inl) other (.inr mem)

-- A range of free keys that ends at a key that is not free, and below which there is
-- always another such key.
theorem maximal_range [LinearOrder β] {rank : α → β} (proper : rank range.1 < rank range.2)
    (inside : ∀ key, Within rank range key → free key)
    (below : ∀ key, rank key < rank range.1 → ∃ stop, rank key ≤ rank stop ∧ rank stop < rank range.1 ∧ ¬free stop)
    (above : ¬free range.2) : MaximalInterval (fun a b => rank a ≤ rank b) free (Within rank range) := by
  have start : Within rank range range.1 := ⟨le_rfl,proper⟩
  refine ⟨⟨_,start⟩,?_,inside,?_⟩
  · rintro a b c ⟨low,_⟩ ⟨_,high⟩ left right
    exact ⟨le_trans low left,lt_of_le_of_lt right high⟩
  intro T convex within larger key mem
  refine ⟨?_,?_⟩
  · by_contra under
    obtain ⟨stop,left,right,taken⟩ := below key (not_le.mp under)
    exact taken (within stop (convex key stop range.1 mem (larger _ start) left (le_of_lt right)))
  · by_contra beyond
    exact above (within _ (convex range.1 range.2 key (larger _ start) mem (le_of_lt proper) (not_lt.mp beyond)))

end

theorem countP_less {entries : List γ} (implies : ∀ entry ∈ entries, p entry = true → q entry = true)
    (mem : entry ∈ entries) (left : q entry = true) (right : p entry = false) : entries.countP p < entries.countP q := by
  have nested : entries.filter p = (entries.filter q).filter p := by
    rw [List.filter_filter]
    refine List.filter_congr fun entry mem => ?_
    have here := implies entry mem
    cases holds : p entry <;> simp_all
  rw [List.countP_eq_length_filter,List.countP_eq_length_filter,nested]
  exact List.length_filter_lt_length_iff_exists.mpr ⟨entry,List.mem_filter.mpr ⟨mem,left⟩,by simp [right]⟩

end Foundations.Ranges
