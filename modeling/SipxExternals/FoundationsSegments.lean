import Mathlib.Algebra.Order.Group.Int
import Mathlib.Data.List.Nodup
import Mathlib.Data.List.Pairwise
import Mathlib.Data.List.Perm.Basic
import Mathlib.Logic.Equiv.Basic

namespace Foundations.Segments
open List hiding after all below head swap getElem?_eq_some_iff

structure TotalPreorder (compare : α → α → Int) : Prop where
  swap : ∀ a b, compare a b < 0 ↔ 0 < compare b a
  trans : ∀ a b c, compare a b ≤ 0 → compare b c ≤ 0 → compare a c ≤ 0

section
variable {compare : α → α → Int}

section
variable (order : TotalPreorder compare)
include order

theorem TotalPreorder.refl (a : α) : compare a a = 0 := by
  have sign := order.swap a a
  omega

theorem TotalPreorder.equal_symm : compare a b = 0 ↔ compare b a = 0 := by
  have one := order.swap a b
  have other := order.swap b a
  omega

theorem TotalPreorder.lt_trans (first : compare a b ≤ 0) (second : compare b c < 0) : compare a c < 0 := by
  by_contra above
  have back : compare c a ≤ 0 := by
    have sign := order.swap a c
    omega
  have wrong := order.trans c a b back first
  have sign := order.swap b c
  omega

theorem TotalPreorder.trans_lt (first : compare a b < 0) (second : compare b c ≤ 0) : compare a c < 0 := by
  by_contra above
  have back : compare c a ≤ 0 := by
    have sign := order.swap a c
    omega
  have wrong := order.trans b c a second back
  have sign := order.swap a b
  omega

end

theorem TotalPreorder.comap {compare : α → α → Int} (order : TotalPreorder compare) (f : β → α) :
    TotalPreorder fun a b => compare (f a) (f b) :=
  ⟨fun a b => order.swap (f a) (f b),fun a b c => order.trans (f a) (f b) (f c)⟩

theorem difference_preorder : TotalPreorder fun a b : Int => a-b := by
  constructor
  · omega
  · omega

end

section
variable {α : Type} {compare : α → α → Int} {data before middle after : Int → α} {lo hi : Int} {n : Nat}

def exchange (data : Int → α) (i j : Int) : Int → α :=
  fun k => if k = i then data j else if k = j then data i else data k

-- The elements between two positions stand there in another order, all others where they were.
def Rearranged (lo hi : Int) (before after : Int → α) : Prop :=
  ∃ σ : Equiv.Perm Int, (∀ k, k < lo ∨ hi < k → σ k = k) ∧ ∀ k, after k = before (σ k)

theorem rearranged_refl (lo hi : Int) (data : Int → α) : Rearranged lo hi data data :=
  ⟨Equiv.refl Int,fun _ _ => rfl,fun _ => rfl⟩

theorem rearranged_trans (first : Rearranged lo hi before middle) (second : Rearranged lo hi middle after) :
    Rearranged lo hi before after := by
  obtain ⟨σ,fixed,moved⟩ := first
  obtain ⟨τ,kept,carried⟩ := second
  refine ⟨τ.trans σ,fun k outside => ?_,fun k => ?_⟩
  · rw [Equiv.trans_apply,kept k outside,fixed k outside]
  · rw [carried,moved,Equiv.trans_apply]

theorem rearranged_widen (part : Rearranged lo hi before after) (left : least ≤ lo) (right : hi ≤ most) :
    Rearranged least most before after := by
  obtain ⟨σ,fixed,moved⟩ := part
  exact ⟨σ,fun k outside => fixed k (by omega),moved⟩

theorem rearranged_outside (part : Rearranged lo hi before after) (outside : k < lo ∨ hi < k) : after k = before k := by
  obtain ⟨σ,fixed,moved⟩ := part
  rw [moved,fixed k outside]

theorem perm_inside {σ : Equiv.Perm Int} (fixed : ∀ k, k < lo ∨ hi < k → σ k = k) (inside : lo ≤ k ∧ k ≤ hi) :
    lo ≤ σ k ∧ σ k ≤ hi := by
  by_contra outside
  have stays := fixed (σ k) (by omega)
  have same := σ.injective stays
  omega

theorem rearranged_all {P : α → Prop} (part : Rearranged lo hi before after) (all : ∀ k, lo ≤ k → k ≤ hi → P (before k)) :
    ∀ k, lo ≤ k → k ≤ hi → P (after k) := by
  obtain ⟨σ,fixed,moved⟩ := part
  intro k low high
  rw [moved]
  obtain ⟨low_image,high_image⟩ := perm_inside fixed ⟨low,high⟩
  exact all (σ k) low_image high_image

theorem rearranged_exchange (data : Int → α) (low : lo ≤ i) (between : i ≤ j) (high : j ≤ hi) :
    Rearranged lo hi data (exchange data i j) := by
  refine ⟨Equiv.swap i j,fun k outside => Equiv.swap_apply_of_ne_of_ne (by omega) (by omega),fun k => ?_⟩
  rw [exchange,Equiv.swap_apply_def]
  split
  · rfl
  · split
    · rfl
    · rfl

def SortedOn (compare : α → α → Int) (lo hi : Int) (data : Int → α) : Prop :=
  ∀ a b, lo ≤ a → a ≤ b → b ≤ hi → compare (data a) (data b) ≤ 0

theorem sortedOn_congr (sorted : SortedOn compare lo hi before) (same : ∀ k, lo ≤ k → k ≤ hi → after k = before k) :
    SortedOn compare lo hi after := by
  intro a b low between high
  rw [same a low (by omega),same b (by omega) high]
  exact sorted a b low between high

theorem sortedOn_short (order : TotalPreorder compare) (short : hi ≤ lo) (data : Int → α) : SortedOn compare lo hi data := by
  intro a b low between high
  obtain rfl : a = b := by omega
  exact (order.refl _).le

theorem sortedOn_glue (order : TotalPreorder compare) (pivot : α) (left : SortedOn compare lo j data)
    (right : SortedOn compare i hi data) (below : ∀ k, lo ≤ k → k < i → compare (data k) pivot ≤ 0)
    (above : ∀ k, j < k → k ≤ hi → compare pivot (data k) ≤ 0) : SortedOn compare lo hi data := by
  intro a b low between high
  by_cases both_left : b ≤ j
  · exact left a b low between both_left
  · by_cases both_right : i ≤ a
    · exact right a b both_right between high
    · exact order.trans _ pivot _ (below a low (by omega)) (above b (by omega) high)

def firsts (n : Nat) (data : Int → α) : List α := (List.range n).map fun k : Nat => data k

theorem firsts_length (n : Nat) (data : Int → α) : (firsts n data).length = n := by
  simp [firsts]

theorem firsts_sorted (sorted : SortedOn compare 0 hi data) (bound : (n : Int) ≤ hi+1) :
    (firsts n data).Pairwise fun a b => compare a b ≤ 0 := by
  rw [firsts,pairwise_map]
  refine pairwise_lt_range.imp_of_mem fun {a b} a_in b_in less => ?_
  have upper := mem_range.mp b_in
  exact sorted a b (by omega) (by omega) (by omega)

theorem perm_natural {σ : Equiv.Perm Int} (fixed : ∀ k, k < 0 ∨ hi < k → σ k = k) (bound : hi < n) (k : Nat) :
    ((σ k).toNat : Int) = σ k ∧ (k < n → (σ k).toNat < n) := by
  by_cases inside : (k : Int) ≤ hi
  · have image := perm_inside fixed ⟨Int.natCast_nonneg k,inside⟩
    omega
  · rw [fixed k (by omega)]
    omega

theorem firsts_perm (part : Rearranged 0 hi before after) (bound : hi < n) : List.Perm (firsts n after) (firsts n before) := by
  obtain ⟨σ,fixed,moved⟩ := part
  have natural := perm_natural fixed bound
  have back := perm_natural (fun k outside => σ.symm_apply_eq.mpr (fixed k outside).symm) bound
  have images : List.Perm ((range n).map fun k : Nat => (σ k).toNat) (range n) := by
    refine (perm_ext_iff_of_nodup (List.Nodup.map ?_ nodup_range) nodup_range).mpr fun k => ?_
    · intro a b same
      have images_same : σ a = σ b := by
        rw [← (natural a).1,← (natural b).1]
        exact congrArg Nat.cast same
      exact Int.natCast_inj.mp (σ.injective images_same)
    simp only [mem_map,mem_range]
    constructor
    · rintro ⟨a,small,rfl⟩
      exact (natural a).2 small
    intro small
    refine ⟨(σ.symm k).toNat,(back k).2 small,?_⟩
    rw [(back k).1,Equiv.apply_symm_apply]
    exact Int.toNat_natCast k
  have mapped := images.map fun k : Nat => before k
  rw [map_map] at mapped
  refine (List.Perm.of_eq (map_congr_left fun k _ => ?_)).trans mapped
  rw [moved,Function.comp_apply,(natural k).1]

theorem firsts_getD (data : List α) {default : α} : firsts data.length (fun k => data.getD k.toNat default) = data := by
  refine ext_getElem (firsts_length _ _) fun k left right => ?_
  simp [firsts,right]

end

section
variable {α : Type} {compare : α → α → Int} {data : List α} {entry other : α} {i k : Nat}

abbrev Ascending (compare : α → α → Int) (data : List α) : Prop := data.Pairwise fun a b => compare a b < 0

abbrev Distinct (compare : α → α → Int) (data : List α) : Prop := data.Pairwise fun a b => compare a b ≠ 0

theorem distinct_perm (order : TotalPreorder compare) (same : List.Perm before after) (distinct : Distinct compare before) :
    Distinct compare after :=
  (same.pairwise_iff fun unequal equal => unequal (order.equal_symm.mp equal)).mp distinct

theorem distinct_eq (order : TotalPreorder compare) (distinct : Distinct compare data) (left : entry ∈ data)
    (right : other ∈ data) (equal : compare entry other = 0) : entry = other := by
  by_contra unequal
  have : Std.Symm fun a b => compare a b ≠ 0 := ⟨fun _ _ apart same => apart (order.equal_symm.mp same)⟩
  exact distinct.forall left right unequal equal

theorem ascending_of_sorted (sorted : data.Pairwise fun a b => compare a b ≤ 0) (distinct : Distinct compare data) :
    Ascending compare data :=
  (sorted.and distinct).imp fun both => lt_of_le_of_ne both.1 both.2

theorem ascending_distinct (ascending : Ascending compare data) : Distinct compare data :=
  ascending.imp fun less => less.ne

theorem ascending_getElem (ascending : Ascending compare data) (left : data[i]? = some entry) (right : data[k]? = some other)
    (less : i < k) : compare entry other < 0 := by
  obtain ⟨i_small,rfl⟩ := getElem?_eq_some_iff.mp left
  obtain ⟨k_small,rfl⟩ := getElem?_eq_some_iff.mp right
  exact pairwise_iff_getElem.mp ascending i k i_small k_small less

-- Where a condition stays true once it is, the first position at which it holds decides it
-- everywhere.
theorem boundary (rising : data.Pairwise fun a b => above a = true → above b = true)
    (here : data[k]? = some entry) : above entry = true ↔ data.findIdx above ≤ k := by
  obtain ⟨small,rfl⟩ := getElem?_eq_some_iff.mp here
  constructor
  · intro holds
    by_contra beyond
    have fails := not_of_lt_findIdx (Nat.lt_of_not_le beyond)
    rw [holds] at fails
    cases fails
  intro reached
  have found := findIdx_getElem (w := lt_of_le_of_lt reached small)
  rcases eq_or_lt_of_le reached with same | before
  · simpa [same] using found
  · exact pairwise_iff_getElem.mp rising _ k _ small before found

-- Halving: the elements of a list that are below stand in front, and the loop finds the first
-- one that is not.
def bisect (below : α → Bool) (data : List α) : Nat → Nat → Nat → Nat
  | 0,_,first => first
  | fuel+1,len,first =>
    if len = 0 then first
    else
      match data[first+len/2]? with
      | none => first
      | some entry =>
        if below entry then bisect below data fuel (len-len/2-1) (first+len/2+1) else bisect below data fuel (len/2) first

theorem bisect_boundary (rising : data.Pairwise fun a b => below b = true → below a = true) :
    ∀ fuel len first,len ≤ fuel → first ≤ data.findIdx (!below ·) → data.findIdx (!below ·) ≤ first+len →
    first+len ≤ data.length → bisect below data fuel len first = data.findIdx (!below ·) := by
  have turned : data.Pairwise fun a b => (!below a) = true → (!below b) = true := rising.imp fun {a b} keeps high => by
    simp only [Bool.not_eq_true'] at high ⊢
    exact Bool.eq_false_iff.mpr fun low => Bool.eq_false_iff.mp high (keeps low)
  intro fuel
  induction fuel with
  | zero =>
    intro len first enough low high _
    rw [bisect]
    omega
  | succ fuel ih =>
    intro len first enough low high bound
    rw [bisect]
    by_cases spent : len = 0
    · rw [if_pos spent]
      omega
    rw [if_neg spent]
    have here := getElem?_eq_getElem (show first+len/2 < data.length by omega)
    have decided := boundary turned here
    rw [here]
    dsimp only
    split
    · rename_i low_here
      rw [low_here] at decided
      simp only [Bool.not_true,Bool.false_eq_true,false_iff] at decided
      exact ih (len-len/2-1) (first+len/2+1) (by omega) (by omega) (by omega) (by omega)
    rename_i high_here
    simp only [Bool.not_eq_true] at high_here
    rw [high_here] at decided
    simp only [Bool.not_false,true_iff] at decided
    exact ih (len/2) first (by omega) (by omega) (by omega) (by omega)

theorem ascending_rising {above : α → Bool} (ascending : Ascending compare data)
    (upward : ∀ a b,compare a b ≤ 0 → above a = true → above b = true) :
    data.Pairwise fun a b => above a = true → above b = true :=
  ascending.imp fun {a b} less => upward a b less.le

theorem find_least (order : TotalPreorder compare) (ascending : Ascending compare data) : data.find? p = some entry ↔
    entry ∈ data ∧ p entry = true ∧ ∀ other ∈ data,p other = true → compare entry other ≤ 0 := by
  have least : ∀ first,data.find? p = some first → ∀ other ∈ data,p other = true → compare first other ≤ 0 := by
    intro first found other mem holds
    obtain ⟨_,left,right,split,fail⟩ := find?_eq_some_iff_append.mp found
    subst split
    rcases mem_append.mp mem with early | late
    · have fails := fail other early
      rw [holds] at fails
      cases fails
    · rcases mem_cons.mp late with rfl | later
      · exact (order.refl other).le
      · exact (rel_of_pairwise_cons (pairwise_append.mp ascending).2.1 later).le
  constructor
  · intro found
    exact ⟨mem_of_find?_eq_some found,find?_some found,least entry found⟩
  rintro ⟨mem,holds,lowest⟩
  obtain ⟨first,found⟩ := Option.isSome_iff_exists.mp (find?_isSome.mpr ⟨entry,mem,holds⟩)
  have first_member := mem_of_find?_eq_some found
  have one := least first found entry mem holds
  have other := lowest first first_member (find?_some found)
  have sign := order.swap first entry
  rw [found,distinct_eq order (ascending_distinct ascending) first_member mem (by omega)]

theorem filter_zero {sign : α → Int} :
    ∀ {data : List α},data.Pairwise (fun a b => (0 ≤ sign a → 0 ≤ sign b) ∧ (0 < sign a → 0 < sign b)) →
    data.filter (sign · = 0) = (data.drop (data.findIdx (0 ≤ sign ·))).takeWhile (sign · = 0)
  | [],_ => rfl
  | head :: rest,rising => by
    obtain ⟨later,rest_rising⟩ := pairwise_cons.mp rising
    have ih := filter_zero rest_rising
    rw [findIdx_cons]
    rcases lt_trichotomy (sign head) 0 with negative | zero | positive
    · have low : ¬ 0 ≤ sign head := by omega
      simp [negative.ne,low,ih]
    · have at_once : rest.findIdx (0 ≤ sign ·) = 0 := by
        cases rest with
        | nil => rfl
        | cons next more =>
          have high := (later next (.head _)).1 zero.ge
          simp [findIdx_cons,high]
      rw [at_once] at ih
      simpa [zero] using ih
    · have none_zero : rest.filter (sign · = 0) = [] := by
        refine filter_eq_nil_iff.mpr fun entry mem => ?_
        have above := (later entry mem).2 positive
        simpa using above.ne'
      simp [positive.le,positive.ne',none_zero]

end

end Foundations.Segments
