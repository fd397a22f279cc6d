import Mathlib.Data.Fintype.Card
import Mathlib.Order.WellFounded

-- Numbers that wrap around at twice a half, compared by the sign of their difference.
namespace Foundations.Wraparound

def offset (half base value : Nat) : Nat := (value+2*half-base)%(2*half)

def Before (half first second : Nat) : Prop := half ≤ offset half second first

section
variable {half base first second : Nat}

theorem offset_self (half base : Nat) : offset half base base = 0 := by
  unfold offset
  rw [Nat.add_sub_cancel_left,Nat.mod_self]

theorem offset_eq (valueBelow : value < 2*half) (baseBelow : base < 2*half) :
    offset half base value = if base ≤ value then value-base else value+2*half-base := by
  unfold offset
  by_cases after : base ≤ value
  · rw [if_pos after,show value+2*half-base = value-base+2*half by omega,Nat.add_mod_right,Nat.mod_eq_of_lt (by omega)]
  · rw [if_neg after,Nat.mod_eq_of_lt (by omega)]

theorem before_irrefl (positive : 0 < half) : ¬ Before half first first := by
  unfold Before
  rw [offset_self]
  omega

section
variable (firstBelow : first < 2*half) (secondBelow : second < 2*half)
include firstBelow secondBelow

theorem offset_inj (baseBelow : base < 2*half) (same : offset half base first = offset half base second) :
    first = second := by
  rw [offset_eq firstBelow baseBelow,offset_eq secondBelow baseBelow] at same
  split at same <;> split at same <;> omega

theorem before_offset (baseBelow : base < 2*half) (firstNear : offset half base first < half)
    (secondNear : offset half base second < half) :
    Before half first second ↔ offset half base first < offset half base second := by
  unfold Before
  rw [offset_eq firstBelow baseBelow] at firstNear ⊢
  rw [offset_eq secondBelow baseBelow] at secondNear ⊢
  rw [offset_eq firstBelow secondBelow]
  by_cases firstAfter : base ≤ first <;> by_cases secondAfter : base ≤ second <;>
    by_cases after : second ≤ first <;>
      simp only [firstAfter,secondAfter,after,if_true,if_false] at firstNear secondNear ⊢ <;> omega

theorem eq_of_not_before
    (forward : ¬ Before half first second) (back : ¬ Before half second first) : first = second := by
  unfold Before at forward back
  rw [offset_eq firstBelow secondBelow] at forward
  rw [offset_eq secondBelow firstBelow] at back
  split at forward <;> split at back <;> omega

end

end

theorem exists_first {α : Type} [Finite α] [Nonempty α] (before : α → α → Prop) (irrefl : ∀ x, ¬ before x x)
    (trans : ∀ x y z, before x y → before y z → before x z) : ∃ x, ∀ y, ¬ before y x := by
  have : IsTrans α before := ⟨trans⟩
  have : Std.Irrefl before := ⟨irrefl⟩
  have founded := Finite.wellFounded_of_trans_of_irrefl before
  obtain ⟨first,_,least⟩ := founded.has_min Set.univ Set.univ_nonempty
  exact ⟨first,fun y => least y (Set.mem_univ y)⟩

end Foundations.Wraparound
