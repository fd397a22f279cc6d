import Mathlib.Data.List.Lex
import Mathlib.Order.Basic

namespace Foundations.Lex
open List

theorem cons_le {a : Nat} : a :: left ≤ b :: right ↔ a < b ∨ (a = b ∧ left ≤ right) := by
  rw [le_iff_lt_or_eq,le_iff_lt_or_eq,cons_lt_cons_iff,cons.injEq,and_or_left,or_assoc]

def place : List Nat → List Nat → Nat
  | a :: left,b :: right => if a = b then place left right+1 else 1
  | _,_ => 1

theorem place_pos (left right : List Nat) : 0 < place left right := by
  cases left with
  | nil => simp [place]
  | cons a left =>
    cases right with
    | nil => simp [place]
    | cons b right =>
      rw [place]
      split
      · omega
      · omega

theorem place_nil : place left [] = 1 ∧ place [] left = 1 := by
  cases left with
  | nil | cons a left => exact ⟨rfl,rfl⟩

-- What differs from a lower list only behind the place where that one differs from a third is
-- below the third too, and differs from it in the same place.
theorem place_kept : ∀ {name lower other : List Nat}, place name lower < place lower other → lower ≤ name →
    other ≤ name ∧ place name other = place name lower
  | name,[],other,later,_ => by
    have first := place_pos name []
    rw [place_nil.2] at later
    omega
  | name,a :: lower,[],later,_ => by
    have first := place_pos name (a :: lower)
    rw [place_nil.1] at later
    omega
  | [],a :: lower,_,_,below => absurd below (by simp)
  | c :: name,a :: lower,b :: other,later,below => by
    rw [place,place] at later
    rw [cons_le] at below
    by_cases same : a = b
    · subst same
      by_cases equal : c = a
      · subst equal
        rw [if_pos rfl,if_pos rfl] at later
        have rest : lower ≤ name := by simpa using below
        obtain ⟨less,kept⟩ := place_kept (Nat.lt_of_succ_lt_succ later) rest
        exact ⟨cons_le.mpr (.inr ⟨rfl,less⟩),by simp [place,kept]⟩
      · have less : a < c := below.resolve_right fun both => equal both.1.symm
        exact ⟨cons_le.mpr (.inl less),by simp [place,equal]⟩
    · rw [if_neg same] at later
      split at later
      · omega
      · omega

def raiseLast (name : List Nat) : List Nat := name.dropLast++(name.getLast?.map (·+1)).toList

theorem raiseLast_single : raiseLast [a] = [a+1] := rfl

theorem raiseLast_cons : raiseLast (a :: b :: name) = a :: raiseLast (b :: name) := by
  simp [raiseLast]

theorem raiseLast_length (filled : name ≠ []) : (raiseLast name).length = name.length := by
  obtain ⟨front,last,rfl⟩ := eq_nil_or_concat name |>.resolve_left filled
  simp [raiseLast]

theorem raiseLast_set (inside : position < name.length) (m : Nat) :
    (raiseLast name).set position (if position+1 = name.length then m+1 else m) = raiseLast (name.set position m) := by
  have filled : name ≠ [] := ne_nil_of_length_pos (Nat.zero_lt_of_lt inside)
  obtain ⟨front,last,rfl⟩ := eq_nil_or_concat name |>.resolve_left filled
  simp only [concat_eq_append,length_append,length_singleton,Nat.add_right_cancel_iff] at inside ⊢
  by_cases same : position = front.length
  · subst same
    simp [raiseLast]
  · have early : position < front.length := by omega
    rw [if_neg same,set_append_left _ _ early]
    simp [raiseLast,set_append_left _ _ early]

theorem begins_between : ∀ {name : List Nat}, name ≠ [] → ∀ other : List Nat,
    (name ≤ other ∧ other < raiseLast name) ↔ name <+: other
  | [],filled,_ => absurd rfl filled
  | [a],_,[] => by simp [raiseLast_single]
  | [a],_,b :: other => by
    have high : ¬other < [] := not_lt_nil other
    have least : [] ≤ other := not_lt.mp high
    rw [raiseLast_single,cons_le,cons_lt_cons_iff,cons_prefix_cons]
    simp only [least,high,and_true,and_false,or_false, nil_prefix]
    omega
  | a :: b :: name,_,[] => by simp [raiseLast_cons]
  | a :: b :: name,_,c :: other => by
    have deeper := begins_between (cons_ne_nil b name) other
    rw [raiseLast_cons,cons_le,cons_lt_cons_iff,cons_prefix_cons,← deeper]
    constructor
    · rintro ⟨low | ⟨rfl,low⟩,high | ⟨same,high⟩⟩
      · omega
      · omega
      · omega
      · exact ⟨rfl,low,high⟩
    · rintro ⟨rfl,low,high⟩
      exact ⟨.inr ⟨rfl,low⟩,.inr ⟨rfl,high⟩⟩

theorem lt_raiseLast (filled : name ≠ []) : name < raiseLast name :=
  ((begins_between filled name).mpr (prefix_refl name)).2

end Foundations.Lex
