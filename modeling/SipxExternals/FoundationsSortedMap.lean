import Mathlib.Data.List.Sort
import SipxExternals.FoundationsRanges

namespace Foundations.SortedMap
open Ranges List

section
variable {p q : γ → Bool} {entries : List γ}

def Cut (p : γ → Bool) (entries : List γ) : Prop := entries.Pairwise fun left right => p left = true → p right = true

theorem cut_before (cut : Cut p entries) : entries.take (entries.findIdx p) = entries.filter fun entry => !p entry := by
  induction entries with
  | nil => rfl
  | cons entry rest ih =>
    obtain ⟨later,tail⟩ := pairwise_cons.mp cut
    cases here : p entry with
    | false => simp [findIdx_cons,here,ih tail]
    | true =>
      have none : rest.filter (fun other => !p other) = [] := by
        rw [filter_eq_nil_iff]
        intro other mem
        simp [later other mem here]
      simp [findIdx_cons,here,none]

theorem cut_behind (cut : Cut p entries) : entries.drop (entries.findIdx p) = entries.filter p := by
  induction entries with
  | nil => rfl
  | cons entry rest ih =>
    obtain ⟨later,tail⟩ := pairwise_cons.mp cut
    cases here : p entry with
    | false => simp [findIdx_cons,here,ih tail]
    | true =>
      have all : rest.filter p = rest := by
        rw [filter_eq_self]
        intro other mem
        exact later other mem here
      simp [findIdx_cons,here,all]

def eraseBetween (entries : List γ) (low high : Nat) : List γ := entries.take low++entries.drop high

section
variable (low : Cut p entries) (high : Cut q entries) (inside : ∀ entry ∈ entries, q entry = true → p entry = true)
include low high inside

theorem erase_cuts : eraseBetween entries (entries.findIdx p) (entries.findIdx q) =
      entries.filter fun entry => !p entry || q entry := by
  rw [eraseBetween,cut_before low,cut_behind high]
  induction entries with
  | nil => rfl
  | cons entry rest ih =>
    obtain ⟨later,tail⟩ := pairwise_cons.mp low
    obtain ⟨own,others⟩ := forall_mem_cons.mp inside
    have onward := ih tail (pairwise_cons.mp high).2 others
    cases first : p entry with
    | false =>
      have second : q entry = false := by
        cases value : q entry with
        | false => rfl
        | true => simp [own value] at first
      simpa [first,second] using onward
    | true =>
      have none : rest.filter (fun other => !p other) = [] := by
        rw [filter_eq_nil_iff]
        intro other mem
        simp [later other mem first]
      cases second : q entry with
      | false | true => simpa [first,second,none] using onward

omit low high inside in
theorem cut_place (cut : Cut p entries) : entries.findIdx p = (entries.filter fun entry => !p entry).length := by
  rw [← cut_before cut,length_take,min_eq_left findIdx_le_length]

theorem cuts_differ : entries.findIdx p ≠ entries.findIdx q ↔ ∃ entry ∈ entries, p entry = true ∧ q entry = false := by
  constructor
  · intro differ
    by_contra none
    have same : ∀ entry ∈ entries, p entry = q entry := by
      intro entry mem
      cases first : p entry with
      | false =>
        cases second : q entry with
        | false => rfl
        | true => simp [inside entry mem second] at first
      | true =>
        cases second : q entry with
        | false => exact absurd ⟨entry,mem,first,second⟩ none
        | true => rfl
    refine differ ?_
    rw [cut_place low,cut_place high]
    congr 1
    refine filter_congr ?_
    intro entry mem
    rw [same entry mem]
  · rintro ⟨entry,mem,first,second⟩ same
    have kept := erase_cuts low high inside
    rw [same,eraseBetween,take_append_drop] at kept
    have all := filter_eq_self.mp kept.symm entry mem
    simp [first,second] at all

end

end

section
variable {compare : α → α → Int}

-- A std::map as the list of its entries in the order of their keys.
def lowerBound (compare : α → α → Int) (entries : List (α × β)) (key : α) : Nat :=
  entries.findIdx fun entry => !decide (compare entry.1 key < 0)

def upperBound (compare : α → α → Int) (entries : List (α × β)) (key : α) : Nat :=
  entries.findIdx fun entry => decide (compare key entry.1 < 0)

def insert (compare : α → α → Int) (entry : α × β) : List (α × β) → List (α × β)
  | [] => [entry]
  | first :: rest =>
    if compare first.1 entry.1 < 0 then first :: insert compare entry rest
    else if compare entry.1 first.1 < 0 then entry :: first :: rest
    else first :: rest

variable {κ : Type} [LinearOrder κ] {rank : α → κ} {entries others before behind : List (α × β)}

def Sorted (rank : α → κ) (entries : List (α × β)) : Prop :=
  entries.Pairwise fun left right => rank left.1 < rank right.1

theorem sorted_filter (sorted : Sorted rank entries) : Sorted rank (entries.filter p) :=
  List.Pairwise.filter p sorted

section
variable (ranked : Ranked compare rank)
include ranked

theorem lower_cut (sorted : Sorted rank entries) : Cut (fun entry => !decide (compare entry.1 key < 0)) entries := by
  refine sorted.imp ?_
  intro left right order above
  simp only [ranked.lt,Bool.not_eq_true',decide_eq_false_iff_not,not_lt] at above ⊢
  exact le_trans above (le_of_lt order)

theorem upper_cut (sorted : Sorted rank entries) : Cut (fun entry => decide (compare key entry.1 < 0)) entries := by
  refine sorted.imp ?_
  intro left right order above
  simp only [ranked.lt,decide_eq_true_eq] at above ⊢
  exact lt_trans above order

theorem insert_between (low : ∀ other ∈ before, rank other.1 < rank entry.1)
    (high : ∀ other ∈ behind, rank entry.1 < rank other.1) :
    insert compare entry (before++behind) = before++entry :: behind := by
  induction before with
  | nil =>
    cases behind with
    | nil => rfl
    | cons other rest =>
      have above := high other (.head _)
      rw [nil_append,insert,if_neg (mt (ranked.lt _ _).mp (not_lt.mpr (le_of_lt above))),if_pos ((ranked.lt _ _).mpr above)]
      rfl
  | cons other before ih =>
    have below := low other (.head _)
    rw [cons_append,insert,if_pos ((ranked.lt _ _).mpr below),ih (forall_mem_cons.mp low).2]
    rfl

theorem insert_perm (new : ∀ other ∈ entries, rank other.1 ≠ rank entry.1) :
    (insert compare entry entries).Perm (entry :: entries) := by
  induction entries with
  | nil => exact .refl _
  | cons first rest ih =>
    obtain ⟨own,others⟩ := forall_mem_cons.mp new
    unfold insert
    split
    · exact ((ih others).cons first).trans (.swap entry first rest)
    rename_i above
    rw [if_pos]
    rw [ranked.lt,not_lt] at above
    rw [ranked.lt]
    exact lt_of_le_of_ne above own.symm

theorem insert_sorted (sorted : Sorted rank entries)
    (new : ∀ other ∈ entries, rank other.1 ≠ rank entry.1) : Sorted rank (insert compare entry entries) := by
  induction entries with
  | nil => exact pairwise_singleton _ _
  | cons first rest ih =>
    obtain ⟨later,tail⟩ := pairwise_cons.mp sorted
    obtain ⟨own,others⟩ := forall_mem_cons.mp new
    unfold insert
    split
    · rename_i below
      refine pairwise_cons.mpr ⟨?_,ih tail others⟩
      intro other mem
      rcases mem_cons.mp ((insert_perm ranked others).mem_iff.mp mem) with rfl | inside
      · exact (ranked.lt _ _).mp below
      · exact later other inside
    rename_i above
    split
    · rename_i below
      rw [ranked.lt] at below
      refine pairwise_cons.mpr ⟨?_,sorted⟩
      exact forall_mem_cons.mpr ⟨below,fun other inside => lt_trans below (later other inside)⟩
    · exact sorted

end

theorem sorted_ext (left : Sorted rank entries) (right : Sorted rank others)
    (same : ∀ entry, entry ∈ entries ↔ entry ∈ others) : entries = others := by
  have nodup : ∀ {list : List (α × β)}, Sorted rank list → list.Nodup := by
    intro list sorted
    refine sorted.imp ?_
    rintro first second order rfl
    exact lt_irrefl _ order
  have perm := (perm_ext_iff_of_nodup (nodup left) (nodup right)).mpr same
  refine List.Perm.eq_of_pairwise ?_ left right perm
  intro first second _ _ below above
  exact absurd (lt_trans below above) (lt_irrefl _)

end

end Foundations.SortedMap
