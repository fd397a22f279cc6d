import Mathlib.Data.List.Basic
import Mathlib.Data.List.TakeWhile
import Mathlib.Order.Lattice

namespace Foundations.CStrings
open List

structure CString where
  text : List UInt8
  ended : 0 ∉ text
deriving DecidableEq

namespace CString

def strlen (s : CString) : Nat := s.text.length

def empty : CString := ⟨[],List.not_mem_nil⟩

@[simp] theorem text_empty : empty.text = [] := rfl

-- The first bytes of a char array that holds the length in front of the string.
def counted (s : CString) : List UInt8 := UInt8.ofNat s.strlen :: s.text++[0]

theorem counted_length (s : CString) : s.counted.length = s.strlen+2 := by
  simp [counted,strlen]

theorem ext_text {left : CString} (same : left.text = right.text) : left = right := by
  cases right
  cases same
  rfl

end CString

def memcmp : List UInt8 → List UInt8 → Nat → Int
  | a :: left,b :: right,n+1 => if a < b then -1 else if b < a then 1 else memcmp left right n
  | _,_,_ => 0

def strcmp : List UInt8 → List UInt8 → Int
  | [],[] => 0
  | [],_ :: _ => -1
  | _ :: _,[] => 1
  | a :: left,b :: right => if a < b then -1 else if b < a then 1 else strcmp left right

theorem strcmp_zero : ∀ {left right : List UInt8},strcmp left right = 0 ↔ left = right
  | [],[] => by simp [strcmp]
  | [],b :: right => by simp [strcmp]
  | a :: left,[] => by simp [strcmp]
  | a :: left,b :: right => by
    rw [strcmp]
    by_cases same : a = b
    · subst same
      simpa using strcmp_zero
    · rcases UInt8.lt_or_lt_of_ne same with less | more
      · simp [less,same]
      · simp [more,UInt8.lt_asymm more,same]

theorem memcmp_zero (long_left : n ≤ left.length) (long_right : n ≤ right.length) :
    memcmp left right n = 0 ↔ left.take n = right.take n := by
  induction n generalizing left right with
  | zero => simp [memcmp]
  | succ n ih =>
    cases left with
    | nil => simp at long_left
    | cons a left =>
      cases right with
      | nil => simp at long_right
      | cons b right =>
        rw [memcmp,take_succ_cons,take_succ_cons]
        by_cases same : a = b
        · subst same
          simpa using ih (Nat.le_of_succ_le_succ long_left) (Nat.le_of_succ_le_succ long_right)
        · rcases UInt8.lt_or_lt_of_ne same with less | more
          · simp [less,same]
          · simp [more,UInt8.lt_asymm more,same]

section
variable {left right : CString}

theorem memcmp_counted (short_left : left.strlen < 256) (short_right : right.strlen < 256) :
    memcmp left.counted right.counted (right.strlen+1) = 0 ↔ left = right := by
  by_cases equal : left.strlen = right.strlen
  · rw [memcmp_zero (by rw [left.counted_length]; omega) (by rw [right.counted_length]; omega)]
    simp only [CString.counted,cons_append,take_succ_cons,equal,cons.injEq,true_and]
    rw [← equal]
    nth_rewrite 2 [equal]
    rw [CString.strlen,CString.strlen,take_left,take_left]
    exact ⟨CString.ext_text,fun same => by rw [same]⟩
  have differ : UInt8.ofNat left.strlen ≠ UInt8.ofNat right.strlen := fun same => by
    have values := congrArg UInt8.toNat same
    simp only [UInt8.toNat_ofNat'] at values
    omega
  have unequal : left ≠ right := fun same => equal (by rw [same])
  simp only [unequal,iff_false]
  rw [CString.counted,CString.counted,cons_append,cons_append,memcmp]
  rcases UInt8.lt_or_lt_of_ne differ with less | more
  · simp [less]
  · simp [more,UInt8.lt_asymm more]

theorem memcmp_begins (short : left.strlen ≤ right.strlen) :
    memcmp (left.counted.drop 1) (right.counted.drop 1) left.strlen = 0 ↔ left.text <+: right.text := by
  simp only [CString.counted,cons_append,drop_succ_cons,drop_zero]
  have lengths : left.text.length ≤ right.text.length := short
  rw [memcmp_zero (by simp [CString.strlen]) (by rw [CString.strlen,length_append]; omega)]
  rw [CString.strlen,take_left,take_append_of_le_length lengths,prefix_iff_eq_take]

end

-- A char array whose last byte is never anything but the terminator.
structure CharArray (size : Nat) where
  bytes : List UInt8
  filled : bytes.length = size
  ended : bytes.getLast? = some 0
deriving DecidableEq

-- What a copy loop puts at the front of such an array: some octets, and behind them the
-- terminator if the loop came to its end.
structure Fill (size : Nat) where
  octets : List UInt8
  closed : Bool
  fits : octets.length < size
deriving DecidableEq

namespace CharArray
variable {size : Nat}

def text (a : CharArray size) : CString where
  text := a.bytes.takeWhile (· ≠ 0)
  ended member := by simpa using List.mem_takeWhile_imp member

def blank (size : Nat) (positive : 0 < size) : CharArray size where
  bytes := List.replicate size 0
  filled := List.length_replicate
  ended := by simp [List.getLast?_replicate,Nat.pos_iff_ne_zero.mp positive]

def patch (a : CharArray size) (fill : Fill size) : CharArray size where
  bytes := fill.octets++if fill.closed then 0 :: a.bytes.drop (fill.octets.length+1) else a.bytes.drop fill.octets.length
  filled := by
    have long := a.filled
    have fits := fill.fits
    split
    · rw [List.length_append,List.length_cons,List.length_drop]
      omega
    · rw [List.length_append,List.length_drop]
      omega
  ended := by
    have long := a.filled
    have fits := fill.fits
    split
    · rw [List.getLast?_append,List.getLast?_cons,List.getLast?_drop]
      split
      · rfl
      · rw [a.ended]
        rfl
    · rw [List.getLast?_append,List.getLast?_drop,if_neg (by omega),a.ended]
      rfl

theorem text_blank : (blank size positive).text.text = [] := by
  obtain ⟨n,rfl⟩ := Nat.exists_eq_succ_of_ne_zero (Nat.pos_iff_ne_zero.mp positive)
  simp [blank,text,replicate_succ]

theorem text_patch {a : CharArray size} (closed : fill.closed = true)
    (whole : fill.octets = s.text++[0]) : (a.patch fill).text = s := by
  apply CString.ext_text
  have plain : ∀ octet ∈ s.text, decide (octet ≠ 0) = true := fun octet mem => by
    exact decide_eq_true fun zero => s.ended (zero ▸ mem)
  simp only [text,patch,whole,closed,if_true,append_assoc,cons_append,nil_append]
  rw [takeWhile_append_of_pos plain,takeWhile_cons_of_neg (by simp),append_nil]

end CharArray

end Foundations.CStrings
