import SipxExternals.FoundationsHorner
import Mathlib.Tactic.IntervalCases

namespace Foundations.Numerals
open List

-- Hexadecimal digits of either case.
def digitValue (c : Char) : Option Nat :=
  if '0' ≤ c ∧ c ≤ '9' then some (c.toNat-48)
  else if 'a' ≤ c ∧ c ≤ 'f' then some (c.toNat-87)
  else if 'A' ≤ c ∧ c ≤ 'F' then some (c.toNat-55)
  else none

theorem digitValue_digitChar (small : n < 16) : digitValue (Nat.digitChar n) = some n := by
  interval_cases n <;> rfl

def decimalValue (c : Char) : Option Nat := if '0' ≤ c ∧ c ≤ '9' then some (c.toNat-48) else none

theorem decimalValue_digitChar (small : n < 10) : decimalValue (Nat.digitChar n) = some n := by
  interval_cases n <;> rfl

def numeral (n : Nat) : List Char :=
  if n = 0 then ['0'] else (Nat.digits 10 n).reverse.map Nat.digitChar

def signedNumeral (n : Int) : List Char :=
  if n < 0 then '-' :: numeral n.natAbs else numeral n.natAbs

def scanDecimal (acc : Nat) : List Char → Nat
  | [] => acc
  | c :: rest =>
    match decimalValue c with
    | some digit => scanDecimal (acc*10+digit) rest
    | none => acc

theorem scanDecimal_digits (small : ∀ digit ∈ digits, digit < 10) (acc : Nat) :
    scanDecimal acc (digits.map Nat.digitChar++rest) = scanDecimal (horner 10 acc digits) rest := by
  induction digits generalizing acc with
  | nil => rfl
  | cons digit digits ih =>
    rw [map_cons,cons_append,scanDecimal,decimalValue_digitChar (small digit mem_cons_self)]
    exact ih (forall_mem_cons.mp small).2 _

theorem scanDecimal_numeral (n : Nat) (stop : decimalValue c = none) (rest : List Char) :
    scanDecimal 0 (numeral n++c :: rest) = n := by
  have ends : ∀ acc, scanDecimal acc (c :: rest) = acc := fun acc => by rw [scanDecimal,stop]
  rw [numeral]
  split
  · rename_i zero
    rw [zero]
    exact ends 0
  · rw [scanDecimal_digits,Horner.horner_digits,ends]
    intro digit mem
    exact Nat.digits_lt_base (by omega) (mem_reverse.mp mem)

theorem mem_numeral (mem : c ∈ numeral n) : ∃ digit, digit < 10 ∧ c = Nat.digitChar digit := by
  rw [numeral] at mem
  split at mem
  · exact ⟨0,by omega,mem_singleton.mp mem⟩
  · obtain ⟨digit,inList,rfl⟩ := mem_map.mp mem
    exact ⟨digit,Nat.digits_lt_base (by omega) (mem_reverse.mp inList),rfl⟩

theorem numeral_ne_nil : numeral n ≠ [] := by
  rw [numeral]
  split
  · simp
  · rename_i positive
    simp [Nat.digits_ne_nil_iff_ne_zero,positive]

end Foundations.Numerals
