import Mathlib.Algebra.Ring.Nat
import Mathlib.Algebra.Ring.Int.Defs
import Mathlib.Data.Nat.Digits.Lemmas
import Mathlib.Tactic.Ring

namespace Foundations

-- Most significant digit first: the value a shift-and-add loop leaves when it
-- starts from an arbitrary accumulator.
def horner {R : Type} [CommSemiring R] (base start : R) (digits : List R) : R :=
  digits.foldl (fun acc digit => acc*base+digit) start

namespace Horner
variable {R : Type} [CommSemiring R]

@[simp] theorem horner_nil {start : R} : horner base start [] = start := rfl

@[simp] theorem horner_cons (base : R) :
    horner base start (digit :: digits) = horner base (start*base+digit) digits := rfl

theorem horner_append (first : List R) :
    horner base start (first++second) = horner base (horner base start first) second := by
  simp [horner,List.foldl_append]

theorem horner_start (start : R) {digits : List R} :
    horner base start digits = start*base^digits.length + horner base 0 digits := by
  induction digits generalizing start with
  | nil => simp
  | cons digit digits ih =>
    rw [horner_cons,horner_cons,ih,ih (0*base+digit),List.length_cons]
    ring

theorem horner_digits : horner base 0 (Nat.digits base n).reverse = n := by
  rw [horner,List.foldl_reverse]
  conv_rhs => rw [← Nat.ofDigits_digits base n,Nat.ofDigits_eq_foldr]
  congr 1
  funext digit acc
  simp only [Nat.cast_id]
  ring

theorem horner_mod (base modulus : Nat) (digits : List Nat) (start : Nat) :
    digits.foldl (fun acc digit => (acc*base+digit)%modulus) (start%modulus) = horner base start digits%modulus := by
  induction digits generalizing start with
  | nil => rfl
  | cons digit digits ih =>
    have step : (start%modulus*base+digit)%modulus = (start*base+digit)%modulus := by
      rw [Nat.add_mod,Nat.mod_mul_mod,← Nat.add_mod]
    rw [List.foldl_cons,step,horner_cons,ih]

end Horner
end Foundations
