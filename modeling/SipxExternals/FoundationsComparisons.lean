import Mathlib.Data.Char
import SipxExternals.FoundationsNumerals
import SipxExternals.FoundationsSegments

namespace Foundations.Comparisons
open Segments Numerals List

def lexicographic (comp : α → α → Int) : List α → List α → Int
  | [],[] => 0
  | [],_ :: _ => -1
  | _ :: _,[] => 1
  | a :: left,b :: right => if comp a b = 0 then lexicographic comp left right else comp a b

section
variable {comp : α → α → Int}

section
variable (order : TotalPreorder comp)
include order

theorem lexicographic_swap (left right : List α) :
    lexicographic comp left right < 0 ↔ 0 < lexicographic comp right left := by
  induction left generalizing right with
  | nil =>
    cases right with
    | nil | cons b right => simp [lexicographic]
  | cons a left ih =>
    cases right with
    | nil => simp [lexicographic]
    | cons b right =>
      rw [lexicographic,lexicographic]
      by_cases same : comp a b = 0
      · rw [if_pos same,if_pos (order.equal_symm.mp same)]
        exact ih right
      · rw [if_neg same,if_neg (fun other => same (order.equal_symm.mpr other))]
        exact order.swap a b

theorem lexicographic_trans (left middle right : List α)
    (first : lexicographic comp left middle ≤ 0) (second : lexicographic comp middle right ≤ 0) :
    lexicographic comp left right ≤ 0 := by
  induction left generalizing middle right with
  | nil =>
    cases right with
    | nil | cons c right => simp [lexicographic]
  | cons a left ih =>
    cases middle with
    | nil => simp [lexicographic] at first
    | cons b middle =>
      cases right with
      | nil => simp [lexicographic] at second
      | cons c right =>
        rw [lexicographic] at first second ⊢
        by_cases low : comp a b = 0
        · rw [if_pos low] at first
          by_cases high : comp b c = 0
          · rw [if_pos high] at second
            have one := order.trans a b c (by omega) (by omega)
            have back := order.trans c b a (by rw [order.equal_symm.mp high]) (by rw [order.equal_symm.mp low])
            have sign := order.swap a c
            rw [if_pos (by omega)]
            exact ih middle right first second
          · have less := order.lt_trans (show comp a b ≤ 0 by omega) (show comp b c < 0 by omega)
            omega
        · have high : comp b c ≤ 0 := by
            split at second
            · omega
            · exact second
          have less := order.trans_lt (show comp a b < 0 by omega) high
          omega

theorem lexicographic_order : TotalPreorder (lexicographic comp) :=
  ⟨lexicographic_swap order,lexicographic_trans order⟩

omit order in
theorem lexicographic_zero (faithful : ∀ a b, comp a b = 0 ↔ a = b) :
    lexicographic comp left right = 0 ↔ left = right := by
  induction left generalizing right with
  | nil =>
    cases right with
    | nil | cons b right => simp [lexicographic]
  | cons a left ih =>
    cases right with
    | nil => simp [lexicographic]
    | cons b right =>
      rw [lexicographic,cons.injEq,← ih,← faithful]
      split
      · rename_i same
        exact ⟨fun rest => ⟨same,rest⟩,And.right⟩
      · rename_i differs
        exact ⟨fun same => absurd same differs,fun both => absurd both.1 differs⟩

theorem lexicographic_append (front left right : List α) :
    lexicographic comp (front++left) (front++right) = lexicographic comp left right := by
  induction front with
  | nil => rfl
  | cons a front ih => rw [cons_append,cons_append,lexicographic,if_pos (order.refl a),ih]

theorem lexicographic_longer (filled : right ≠ []) : lexicographic comp front (front++right) < 0 := by
  have same := lexicographic_append order front [] right
  rw [append_nil] at same
  obtain ⟨b,right,rfl⟩ := exists_cons_of_ne_nil filled
  rw [same]
  simp [lexicographic]

end

theorem lexicographic_map (left right : List β) (same : ∀ a ∈ left, ∀ b ∈ right, comp (image a) (image b) = other a b) :
    lexicographic comp (left.map image) (right.map image) = lexicographic other left right := by
  induction left generalizing right with
  | nil =>
    cases right with
    | nil | cons b right => rfl
  | cons a left ih =>
    cases right with
    | nil => rfl
    | cons b right =>
      rw [map_cons,map_cons,lexicographic,lexicographic,same a (.head _ ..) b (.head _ ..),
        ih right fun x inLeft y inRight => same x (.tail _ inLeft) y (.tail _ inRight)]

end

def orElse (first second : Int) : Int := if first ≠ 0 then first else second

theorem orElse_order (first : TotalPreorder comp) (second : TotalPreorder other) :
    TotalPreorder fun a b => orElse (comp a b) (other a b) := by
  constructor
  · intro a b
    have signs := And.intro (first.swap a b) (first.swap b a)
    have deeper := second.swap a b
    unfold orElse
    omega
  · intro a b c low high
    have signs := And.intro (first.swap a b) (And.intro (first.swap b c) (first.swap a c))
    have forth := first.trans a b c
    have back := first.trans c b a
    have before := @TotalPreorder.lt_trans _ _ first a b c
    have behind := @TotalPreorder.trans_lt _ _ first a b c
    have deeper := second.trans a b c
    unfold orElse at *
    omega

def sign [LinearOrder α] (a b : α) : Int := if a < b then -1 else if b < a then 1 else 0

theorem sign_order [LinearOrder α] : TotalPreorder (sign : α → α → Int) where
  swap a b := by
    unfold sign
    rcases lt_trichotomy a b with less | same | more
    · simp [less,less.not_gt]
    · simp [same]
    · simp [more,more.not_gt]
  trans a b c first second := by
    unfold sign at first second ⊢
    have low : a ≤ b := by
      by_contra more
      simp [not_le.mp more,(not_le.mp more).not_gt] at first
    have high : b ≤ c := by
      by_contra more
      simp [not_le.mp more,(not_le.mp more).not_gt] at second
    have both := low.trans high
    rcases both.lt_or_eq with less | same
    · simp [less]
    · simp [same]

theorem sign_zero [LinearOrder α] (a b : α) : sign a b = 0 ↔ a = b := by
  unfold sign
  rcases lt_trichotomy a b with less | same | more
  · simp [less,less.ne]
  · simp [same]
  · simp [more,more.not_gt,more.ne']

section
variable {left right : List Nat}

theorem horner_bounds (acc : Nat) (small : ∀ digit ∈ digits, digit < base) :
    acc*base^digits.length ≤ horner base acc digits ∧ horner base acc digits < (acc+1)*base^digits.length := by
  induction digits generalizing acc with
  | nil => simp
  | cons digit digits ih =>
    obtain ⟨here,rest⟩ := forall_mem_cons.mp small
    obtain ⟨low,high⟩ := ih (acc*base+digit) rest
    have power : base^(digit :: digits).length = base*base^digits.length := by
      rw [length_cons,pow_succ]
      ring
    rw [Horner.horner_cons,power]
    constructor
    · refine le_trans ?_ low
      rw [← mul_assoc]
      exact Nat.mul_le_mul_right _ (Nat.le_add_right _ _)
    refine lt_of_lt_of_le high ?_
    rw [← mul_assoc]
    refine Nat.mul_le_mul_right _ ?_
    rw [add_mul,one_mul]
    omega

-- Digits against no fewer digits: the order of the number they make and of the one that as
-- many of the others make.
theorem lexicographic_digits (acc : Nat) (smallLeft : ∀ digit ∈ left, digit < 10)
    (smallRight : ∀ digit ∈ right, digit < 10) (short : left.length ≤ right.length) :
    lexicographic sign left right ≤ 0 ↔ horner 10 acc left ≤ horner 10 acc (right.take left.length) := by
  induction left generalizing right acc with
  | nil =>
    cases right with
    | nil | cons b right => simp [lexicographic]
  | cons a left ih =>
    cases right with
    | nil => simp at short
    | cons b right =>
      obtain ⟨_,restLeft⟩ := forall_mem_cons.mp smallLeft
      obtain ⟨_,restRight⟩ := forall_mem_cons.mp smallRight
      have shorter : left.length ≤ right.length := Nat.le_of_succ_le_succ short
      have taken : (right.take left.length).length = left.length := by
        rw [length_take]
        omega
      have smallTaken : ∀ digit ∈ right.take left.length, digit < 10 :=
        fun digit mem => restRight digit (mem_of_mem_take mem)
      rw [lexicographic,length_cons,take_succ_cons,Horner.horner_cons,Horner.horner_cons]
      rcases lt_trichotomy a b with less | rfl | more
      · have high := (horner_bounds (acc*10+a) restLeft).2
        have low := (horner_bounds (acc*10+b) smallTaken).1
        rw [taken] at low
        have step : (acc*10+a+1)*10^left.length ≤ (acc*10+b)*10^left.length :=
          Nat.mul_le_mul_right _ (by omega)
        have negative : sign a b = -1 := by simp [sign,less]
        rw [negative]
        omega
      · rw [if_pos ((sign_zero a a).mpr rfl)]
        exact ih (acc*10+a) restLeft restRight shorter
      · have high := (horner_bounds (acc*10+b) smallTaken).2
        have low := (horner_bounds (acc*10+a) restLeft).1
        rw [taken] at high
        have step : (acc*10+b+1)*10^left.length ≤ (acc*10+a)*10^left.length :=
          Nat.mul_le_mul_right _ (by omega)
        have positive : sign a b = 1 := by simp [sign,more,more.not_gt]
        rw [positive]
        omega

theorem horner_take (small : ∀ digit ∈ digits, digit < 10) {count : Nat} :
    horner 10 0 (digits.take count) = horner 10 0 digits/10^(digits.length-count) := by
  have parts : horner 10 0 digits = horner 10 (horner 10 0 (digits.take count)) (digits.drop count) := by
    rw [← Horner.horner_append,take_append_drop]
  obtain ⟨low,high⟩ := horner_bounds (horner 10 0 (digits.take count))
    fun digit mem => small digit (mem_of_mem_drop mem)
  rw [← parts,length_drop] at low high
  exact (Nat.div_eq_of_lt_le low high).symm

def decimals (n : Nat) : List Nat := if n = 0 then [0] else (Nat.digits 10 n).reverse

theorem numeral_decimals : numeral n = (decimals n).map Nat.digitChar := by
  unfold numeral decimals
  split
  · rfl
  · rfl

theorem decimals_value (n : Nat) : horner 10 0 (decimals n) = n := by
  unfold decimals
  split
  · rename_i zero
    simp [zero]
  · exact Horner.horner_digits

theorem decimals_small : ∀ digit ∈ decimals n, digit < 10 := by
  intro digit mem
  unfold decimals at mem
  split at mem
  · simp at mem
    omega
  · exact Nat.digits_lt_base (by omega) (mem_reverse.mp mem)

theorem decimals_length (less : m < n) : (decimals m).length ≤ (decimals n).length := by
  unfold decimals
  rw [if_neg (show n ≠ 0 by omega),length_reverse]
  split
  · exact length_pos_of_ne_nil (Nat.digits_ne_nil_iff_ne_zero.mpr (by omega))
  · rw [length_reverse]
    exact Nat.le_length_digits_le 10 m n less.le

theorem sign_digitChar : ∀ a < 10, ∀ b < 10, sign (Nat.digitChar a) (Nat.digitChar b) = sign a b := by
  decide

theorem numeral_digits : lexicographic sign (numeral m) (numeral n) = lexicographic sign (decimals m) (decimals n) := by
  rw [numeral_decimals,numeral_decimals]
  exact lexicographic_map _ _ fun a inLeft b inRight =>
    sign_digitChar a (decimals_small a inLeft) b (decimals_small b inRight)

theorem numeral_zero : lexicographic sign (numeral m) (numeral n) = 0 ↔ m = n := by
  rw [numeral_digits,lexicographic_zero sign_zero]
  constructor
  · intro same
    rw [← decimals_value m,same,decimals_value]
  · rintro rfl
    rfl

theorem numeral_order (less : m < n) :
    lexicographic sign (numeral m) (numeral n) < 0 ↔ m ≤ n/10^((numeral n).length-(numeral m).length) := by
  have differs := mt numeral_zero.mp less.ne
  have order := lexicographic_digits 0 decimals_small decimals_small (decimals_length less)
  rw [horner_take decimals_small,decimals_value,decimals_value,← numeral_digits] at order
  rw [numeral_decimals,numeral_decimals,length_map,length_map,← order,← numeral_decimals,← numeral_decimals]
  omega

end

end Foundations.Comparisons
