import Mathlib.Algebra.BigOperators.Group.List.Basic
import Mathlib.Algebra.Order.BigOperators.Group.List
import Mathlib.Data.List.Nodup
import Mathlib.Order.OrderIsoNat
import Mathlib.Tactic.Linarith
import Mathlib.Tactic.Ring

namespace Foundations.Transfers
open List

section
variable {accounts : List α} {before after : α → Nat} {first second : α}

-- Two accounts may change, all others stay.
structure Transfer (accounts : List α) (before after : α → Nat) (first second : α) : Prop where
  nodup : accounts.Nodup
  firstIn : first ∈ accounts
  secondIn : second ∈ accounts
  different : first ≠ second
  others : ∀ account ∈ accounts, account ≠ first → account ≠ second → after account = before account

theorem transfer_sum (transfer : Transfer accounts before after first second) :
    (accounts.map after).sum+(before first+before second) = (accounts.map before).sum+(after first+after second) := by
  obtain ⟨nodup,firstIn,secondIn,different,others⟩ := transfer
  obtain ⟨left,right,rfl⟩ := append_of_mem firstIn
  have perm : (left++first :: right).Perm (first :: (left++right)) := perm_middle
  have rest := nodup_cons.mp (perm.nodup_iff.mp nodup)
  have inside : second ∈ left++right := by
    rcases mem_cons.mp (perm.mem_iff.mp secondIn) with equal | inside
    · exact absurd equal.symm different
    · exact inside
  generalize left++right = middle at perm rest inside
  obtain ⟨low,high,rfl⟩ := append_of_mem inside
  have perm' : (low++second :: high).Perm (second :: (low++high)) := perm_middle
  have alone := nodup_cons.mp (perm'.nodup_iff.mp rest.2)
  have whole := perm.trans (perm'.cons first)
  have same : (low++high).map after = (low++high).map before := by
    refine map_congr_left ?_
    intro account mem
    refine others account (whole.mem_iff.mpr (by simp [mem])) ?_ ?_
    · rintro rfl
      exact rest.1 (perm'.mem_iff.mpr (.tail _ mem))
    · rintro rfl
      exact alone.1 mem
  rw [(whole.map after).sum_eq,(whole.map before).sum_eq]
  simp only [map_cons,sum_cons,same]
  omega

end

theorem squares_less (gap : y+2 ≤ x) : (x-1)^2+(y+1)^2 < x^2+y^2 := by
  obtain ⟨more,rfl⟩ : ∃ more, x = y+2+more := ⟨x-(y+2),by omega⟩
  have one : y+2+more-1 = y+1+more := by omega
  nlinarith

theorem descent_ends [Preorder α] [WellFoundedLT α] (measure : Nat → α) {stops : Nat → Prop}
    (falls : ∀ n, stops n ∨ measure (n+1) < measure n) : ∃ n, stops n := by
  by_contra never
  have down : ∀ n, measure (n+1) < measure n := by
    intro n
    rcases falls n with stop | less
    · exact absurd ⟨n,stop⟩ never
    · exact less
  exact not_strictAnti_of_wellFoundedLT measure (strictAnti_nat_of_succ_lt down)

end Foundations.Transfers
