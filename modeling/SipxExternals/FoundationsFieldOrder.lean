import SipxExternals.FoundationsSegments

namespace Foundations.FieldOrder
open Segments List

section
variable {compare : α → α → Int}

theorem congr_left (order : TotalPreorder compare) (equal : compare a b = 0) :
    (compare a c < 0 ↔ compare b c < 0) ∧ (compare a c = 0 ↔ compare b c = 0) := by
  have back := order.equal_symm.mp equal
  have forth_lt := fun less : compare b c < 0 => order.lt_trans equal.le less
  have back_lt := fun less : compare a c < 0 => order.lt_trans back.le less
  have forth_le := fun most : compare b c ≤ 0 => order.trans a b c equal.le most
  have back_le := fun most : compare a c ≤ 0 => order.trans b a c back.le most
  omega

def along (direction : Int) (compare : α → α → Int) (a b : α) : Int := direction*compare a b

theorem along_preorder (order : TotalPreorder compare) (turned : direction = 1 ∨ direction = -1) :
    TotalPreorder (along direction compare) := by
  rcases turned with rfl | rfl
  · refine ⟨fun a b => ?_,fun a b c => ?_⟩
    · simpa [along] using order.swap a b
    · simpa [along] using order.trans a b c
  refine ⟨fun a b => ?_,fun a b c => ?_⟩
  · simpa [along] using (order.swap b a).symm
  intro first second
  have signs := And.intro (order.swap a b) (And.intro (order.swap b c) (order.swap a c))
  have path := order.trans c b a
  simp only [along] at *
  omega

end

def fieldCompare : List (α → α → Int) → List α → List α → Int
  | compare :: others,a :: left,b :: right =>
    if compare a b ≠ 0 then compare a b else fieldCompare others left right
  | _,_,_ => 0

-- A position: the first fields of a key, and the end of all keys with these or start values, each with a flag that
-- counts an equal value in.
def positionCompare : List (α → α → Int) → List α → List α → Bool → List (α × Bool) → Int
  | compare :: others,a :: key,b :: first,past,starts =>
    if compare a b ≠ 0 then compare a b else positionCompare others key first past starts
  | _,_,[],true,_ => -1
  | compare :: others,a :: key,[],false,(start,inclusive) :: starts =>
    if compare a start ≠ 0 then compare a start
    else if inclusive then positionCompare others key [] false starts else -1
  | _,_,_,_,_ => 0

section
variable {compare : α → α → Int} {a b mark : α} {orders : List (α → α → Int)} {left right first : List α} {past : Bool} {starts : List (α × Bool)}

theorem field_mono (order : TotalPreorder compare) (less : (if compare a b ≠ 0 then compare a b else others) ≤ 0)
    (before : (if compare b mark ≠ 0 then compare b mark else deeper) < 0) (rest : others ≤ 0 → deeper < 0 → lower < 0) :
    (if compare a mark ≠ 0 then compare a mark else lower) < 0 := by
  by_cases equal : compare a b = 0
  · obtain ⟨below,same⟩ := congr_left order (c := mark) equal
    rw [if_neg (not_not.mpr equal)] at less
    by_cases here : compare b mark = 0
    · rw [if_neg (not_not.mpr here)] at before
      rw [if_neg (not_not.mpr (same.mpr here))]
      exact rest less before
    · rw [if_pos here] at before
      rw [if_pos (mt same.mp here)]
      exact below.mpr before
  · rw [if_pos equal] at less
    have reached : compare b mark ≤ 0 := by
      split at before
      · exact before.le
      · omega
    have below := order.trans_lt (lt_of_le_of_ne less equal) reached
    rw [if_pos below.ne]
    exact below

theorem field_first (less : fieldCompare (compare :: orders) (a :: left) (b :: right) ≤ 0) : compare a b ≤ 0 := by
  rw [fieldCompare] at less
  split at less
  · exact less
  · rename_i equal
    exact (not_not.mp equal).le

section
variable (total : ∀ compare ∈ orders,TotalPreorder compare)
include total

theorem position_mono (lengths : left.length = right.length)
    (less : fieldCompare orders left right ≤ 0) (before : positionCompare orders right first past starts < 0) :
    positionCompare orders left first past starts < 0 := by
  induction orders generalizing left right first starts with
  | nil =>
    cases first with
    | cons mark first => simp [positionCompare] at before
    | nil =>
      cases past with
      | true => simp [positionCompare]
      | false => simp [positionCompare] at before
  | cons compare others ih =>
    have order := total compare (.head _)
    have deeper := fun other mem => total other (mem_cons_of_mem compare mem)
    cases left with
    | nil =>
      cases right with
      | nil => exact before
      | cons b right => cases lengths
    | cons a left =>
      cases right with
      | nil => cases lengths
      | cons b right =>
        have shorter := Nat.succ.inj lengths
        cases first with
        | cons mark first => exact field_mono order less before (ih deeper shorter)
        | nil =>
          cases past with
          | true => simp [positionCompare]
          | false =>
            cases starts with
            | nil => simp [positionCompare] at before
            | cons start starts =>
              refine field_mono order less before fun rest later => ?_
              split
              · rename_i inclusive
                rw [if_pos inclusive] at later
                exact ih deeper shorter rest later
              · omega

theorem field_refl (key : List α) : fieldCompare orders key key = 0 := by
  induction orders generalizing key with
  | nil => rfl
  | cons compare others ih =>
    cases key with
    | nil => rfl
    | cons a key =>
      rw [fieldCompare,if_neg (not_not.mpr ((total compare mem_cons_self).refl a))]
      exact ih (fun other mem => total other (mem_cons_of_mem compare mem)) key

theorem field_turned (left right : List α) :
    fieldCompare (orders.map (along (-1))) left right ≤ 0 ↔ fieldCompare orders right left ≤ 0 := by
  induction orders generalizing left right with
  | nil => simp [fieldCompare]
  | cons compare others ih =>
    cases left with
    | nil => cases right <;> simp [fieldCompare]
    | cons a left =>
      cases right with
      | nil => simp [fieldCompare]
      | cons b right =>
        have order := total compare (.head _)
        have deeper := ih (fun other mem => total other (mem_cons_of_mem compare mem)) left right
        have sign := order.swap a b
        have other := order.swap b a
        rw [map_cons,fieldCompare,fieldCompare,along]
        by_cases equal : compare a b = 0
        · rw [if_neg (by omega),if_neg (by omega)]
          exact deeper
        · omega

theorem position_own (short : n ≤ left.length)
    (fits : left.length = orders.length) (past : Bool) (starts : List (α × Bool)) :
    positionCompare orders left (left.take n) past starts =
      if past then -1 else positionCompare (orders.drop n) (left.drop n) [] false starts := by
  induction n generalizing orders left with
  | zero =>
    cases past with
    | true => simp [positionCompare]
    | false => simp
  | succ n ih =>
    cases orders with
    | nil => simp [length_eq_zero_iff.mp fits] at short
    | cons compare others =>
      cases left with
      | nil => cases fits
      | cons a left =>
        rw [take_succ_cons,positionCompare,if_neg (not_not.mpr ((total compare mem_cons_self).refl a))]
        exact ih (fun other mem => total other (mem_cons_of_mem compare mem)) (Nat.le_of_succ_le_succ short)
          (Nat.succ.inj fits)

theorem position_later (short : n ≤ left.length)
    (lengths : left.length = right.length) (fits : left.length = orders.length) (less : fieldCompare orders left right ≤ 0)
    (before : positionCompare orders right (left.take n) past starts < 0) :
    fieldCompare (orders.drop n) (left.drop n) (right.drop n) ≤ 0 ∧
    (past = true ∨ positionCompare (orders.drop n) (right.drop n) [] false starts < 0) := by
  induction n generalizing orders left right with
  | zero =>
    refine ⟨less,?_⟩
    cases past with
    | true => exact .inl rfl
    | false => exact .inr before
  | succ n ih =>
    cases orders with
    | nil => simp [length_eq_zero_iff.mp fits] at short
    | cons compare others =>
      cases left with
      | nil => cases fits
      | cons a left =>
        cases right with
        | nil => cases lengths
        | cons b right =>
          have order := total compare (.head _)
          rw [take_succ_cons,positionCompare] at before
          rw [fieldCompare] at less
          have sign := order.swap a b
          have equal : compare a b = 0 := by
            split at less
            · split at before
              · omega
              · omega
            · omega
          have back : compare b a = 0 := order.equal_symm.mp equal
          rw [if_neg (not_not.mpr equal)] at less
          rw [if_neg (not_not.mpr back)] at before
          exact ih (fun other mem => total other (mem_cons_of_mem compare mem)) (Nat.le_of_succ_le_succ short)
            (Nat.succ.inj lengths) (Nat.succ.inj fits) less before

end

end

end Foundations.FieldOrder
