import Mathlib.Data.List.Basic
import Mathlib.Tactic.Ring

namespace NetSnmp.Counter64
open List

-- The halves are unsigned longs that hold 32 bits each.
structure U64 where
  high : Nat
  low : Nat
  deriving DecidableEq

def uint32 (x : Nat) : Nat := x%2^32

def ulongSub (a b : Nat) : Nat := (a+2^64-b)%2^64

def incrByU32 (u : U64) (u32 : Nat) : U64 :=
  let tmp := uint32 u.low
  let low := uint32 (tmp+uint32 u32)
  if low < tmp then ⟨uint32 (u.high+1),low⟩ else ⟨u.high,low⟩

def u64Subtract (one two : U64) : U64 :=
  let carry := if one.low < two.low then 1 else 0
  ⟨uint32 (ulongSub (ulongSub one.high two.high) carry),uint32 (ulongSub one.low two.low)⟩

def u64Incr (out one : U64) : U64 := incrByU32 ⟨uint32 (out.high+one.high),out.low⟩ one.low

def u64UpdateCounter (out one two : U64) : U64 := u64Incr out (u64Subtract one two)

-- The return value, and the new value, which is adjusted after a 32 bit wrap.
def netsnmpC64CheckFor32bitWrap (oldVal newVal : U64) (adjust : Bool) : Int × U64 :=
  if newVal.low ≥ oldVal.low ∧ newVal.high = oldVal.high then (0,newVal)
  else if newVal.high = oldVal.high then (32,if adjust then ⟨uint32 (newVal.high+1),newVal.low⟩ else newVal)
  else if newVal.high = uint32 (oldVal.high+1) then (64,newVal)
  else (-2,newVal)

structure Updated where
  rc : Int
  prevVal : U64
  newVal : U64
  needWrapCheck : Option Int
  deriving DecidableEq

-- None when the assertion fails; need_wrap_check may be NULL.
def netsnmpC64Check32AndUpdate (prevVal newVal oldPrevVal : U64) (needWrapCheck : Option Int) : Option Updated :=
  let (rc,newVal) :=
    if needWrapCheck = some 0 then (0,newVal) else netsnmpC64CheckFor32bitWrap oldPrevVal newVal true
  if rc < 0 then some ⟨-1,prevVal,newVal,needWrapCheck⟩
  else
    let prevVal := u64UpdateCounter prevVal newVal oldPrevVal
    if rc = 32 then if newVal.high = 1 then some ⟨0,prevVal,⟨0,newVal.low⟩,needWrapCheck⟩ else none
    else if rc = 64 then
      if prevVal.low ≠ newVal.low ∨ prevVal.high ≠ newVal.high then some ⟨-2,prevVal,newVal,needWrapCheck⟩
      else some ⟨0,prevVal,newVal,needWrapCheck.map fun _ => 0⟩
    else some ⟨0,prevVal,newVal,needWrapCheck⟩

structure Counter where
  current : U64
  old : U64
  needWrapCheck : Option Int

def sample (c : Counter) (newVal : U64) : Option (Int × Counter) := do
  let u ← netsnmpC64Check32AndUpdate c.current newVal c.old c.needWrapCheck
  some (u.rc,⟨u.prevVal,u.newVal,u.needWrapCheck⟩)

def sampleAll : Counter → List U64 → Option (List (Int × U64))
  | _,[] => some []
  | c,newVal :: samples => do
    let (rc,c) ← sample c newVal
    let rest ← sampleAll c samples
    some ((rc,c.current) :: rest)

def advance : Nat → List Nat → List Nat
  | _,[] => []
  | t,d :: ds => (t+d) :: advance (t+d) ds

def value (u : U64) : Nat := u.high*2^32+u.low

def split (x : Nat) : U64 := ⟨x / 2^32%2^32,x%2^32⟩

def hardware (x : Nat) : U64 := ⟨0,x%2^32⟩

structure Sized (u : U64) : Prop where
  high : u.high < 2^32
  low : u.low < 2^32

theorem split_sized (x : Nat) : Sized (split x) := ⟨Nat.mod_lt _ (by decide),Nat.mod_lt _ (by decide)⟩

theorem split_same (same : x%2^64 = y%2^64) : split x = split y := by
  simp only [split,U64.mk.injEq]
  omega

theorem value_split : value (split x) = x%2^64 := by
  simp only [value,split]
  omega

theorem subtract_split (first : Sized one) (second : Sized two) :
    u64Subtract one two = split (value one+2^64-value two) := by
  obtain ⟨highOne,lowOne⟩ := first
  obtain ⟨highTwo,lowTwo⟩ := second
  simp only [u64Subtract,split,value,uint32,ulongSub,U64.mk.injEq] at *
  split
  · omega
  · omega

theorem incr_split (first : Sized out) (second : Sized one) : u64Incr out one = split (value out+value one) := by
  obtain ⟨h1,l1⟩ := out
  obtain ⟨h2,l2⟩ := one
  obtain ⟨highOne,lowOne⟩ := first
  obtain ⟨highTwo,lowTwo⟩ := second
  unfold u64Incr incrByU32
  by_cases carried : uint32 (uint32 l1+uint32 l2) < uint32 l1
  · rw [if_pos carried]
    simp only [split,value,uint32,U64.mk.injEq] at *
    omega
  · rw [if_neg carried]
    simp only [split,value,uint32,U64.mk.injEq] at *
    omega

theorem update_split (counter : Sized out) (first : Sized one) (second : Sized two)
    (difference : (value two+d)%2^64 = value one) : u64UpdateCounter out one two = split (value out+d) := by
  have bound : value two < 2^64 := by
    have high := second.high
    have low := second.low
    simp only [value]
    omega
  rw [u64UpdateCounter,subtract_split first second,incr_split counter (split_sized _),value_split]
  refine split_same ?_
  omega

section
variable {current : U64} {t d : Nat} {needWrapCheck : Option Int}

theorem hardware_sized (x : Nat) : Sized (hardware x) := ⟨Nat.zero_lt_succ _,Nat.mod_lt _ (by decide)⟩

theorem sample_hardware (sized : Sized current) (flag : needWrapCheck ≠ some 0) (small : d < 2^32) :
    sample ⟨current,hardware t,needWrapCheck⟩ (hardware (t+d)) =
      some (0,⟨split (value current+d),hardware (t+d),needWrapCheck⟩) := by
  have old := hardware_sized t
  by_cases wrapped : (t+d)%2^32 < t%2^32
  · have adjusted : Sized ⟨1,(t+d)%2^32⟩ := ⟨Nat.lt_of_sub_eq_succ rfl,Nat.mod_lt _ (by decide)⟩
    have moved : (value (hardware t)+d)%2^64 = value ⟨1,(t+d)%2^32⟩ := by
      simp only [value,hardware]
      omega
    have updated := update_split sized adjusted old moved
    have check : netsnmpC64CheckFor32bitWrap (hardware t) (hardware (t+d)) true = (32,⟨1,(t+d)%2^32⟩) := by
      rw [netsnmpC64CheckFor32bitWrap,if_neg fun both => Nat.not_le.mpr wrapped both.1,if_pos rfl]
      rfl
    simp only [sample,netsnmpC64Check32AndUpdate,if_neg flag,check,updated]
    rfl
  · have moved : (value (hardware t)+d)%2^64 = value (hardware (t+d)) := by
      simp only [value,hardware]
      omega
    have updated := update_split sized (hardware_sized (t+d)) old moved
    have check : netsnmpC64CheckFor32bitWrap (hardware t) (hardware (t+d)) true = (0,hardware (t+d)) := by
      rw [netsnmpC64CheckFor32bitWrap,if_pos ⟨Nat.not_lt.mp wrapped,rfl⟩]
    simp only [sample,netsnmpC64Check32AndUpdate,if_neg flag,check,updated]
    rfl

theorem sample_wide (t : Nat) (needWrapCheck : Option Int) (small : d < 2^32) : ∃ flag, sample ⟨split t,split t,needWrapCheck⟩ (split (t+d)) =
    some (0,⟨split (t+d),split (t+d),flag⟩) := by
  have moved : (value (split t)+d)%2^64 = value (split (t+d)) := by
    rw [value_split,value_split]
    omega
  have updated := update_split (split_sized t) (split_sized (t+d)) (split_sized t) moved
  rw [value_split,split_same (show (t%2^64+d)%2^64 = (t+d)%2^64 by omega)] at updated
  by_cases unchecked : needWrapCheck = some 0
  · refine ⟨needWrapCheck,?_⟩
    simp only [sample,netsnmpC64Check32AndUpdate,if_pos unchecked,updated]
    rfl
  by_cases same : (split (t+d)).high = (split t).high
  · have grown : (split (t+d)).low ≥ (split t).low := by
      simp only [split] at *
      omega
    have check : netsnmpC64CheckFor32bitWrap (split t) (split (t+d)) true = (0,split (t+d)) := by
      rw [netsnmpC64CheckFor32bitWrap,if_pos ⟨grown,same⟩]
    refine ⟨needWrapCheck,?_⟩
    simp only [sample,netsnmpC64Check32AndUpdate,if_neg unchecked,check,updated]
    rfl
  have next : (split (t+d)).high = uint32 ((split t).high+1) := by
    simp only [split,uint32] at *
    omega
  have check : netsnmpC64CheckFor32bitWrap (split t) (split (t+d)) true = (64,split (t+d)) := by
    rw [netsnmpC64CheckFor32bitWrap,if_neg (fun both => same both.2),if_neg same,if_pos next]
  simp only [sample,netsnmpC64Check32AndUpdate,if_neg unchecked,check,updated]
  simp

end

theorem advance_above : ∀ {ds : List Nat} {t : Nat}, ∀ x ∈ advance t ds, t ≤ x
  | [],_,_,wrong => by cases wrong
  | d :: _,t,x,mem => by
    rcases mem_cons.mp mem with rfl | later
    · exact Nat.le_add_right t d
    · exact Nat.le_trans (Nat.le_add_right t d) (advance_above x later)

theorem hardware_run : ∀ {ds : List Nat} {t : Nat} {current : U64} {needWrapCheck : Option Int}, Sized current → needWrapCheck ≠ some 0 →
    (∀ d ∈ ds, d < 2^32) → sampleAll ⟨current,hardware t,needWrapCheck⟩ ((advance t ds).map hardware) =
      some ((advance t ds).map fun x => (0,split (value current+(x-t))))
  | [],_,_,_,_,_,_ => rfl
  | d :: ds,t,current,needWrapCheck,sized,flag,small => by
    have rest : sampleAll ⟨split (value current+d),hardware (t+d),needWrapCheck⟩ ((advance (t+d) ds).map hardware) = _ :=
      hardware_run (split_sized (value current+d)) flag (forall_mem_cons.mp small).2
    have tail : (advance (t+d) ds).map (fun x => ((0 : Int),split (value (split (value current+d))+(x-(t+d))))) =
        (advance (t+d) ds).map fun x => ((0 : Int),split (value current+(x-t))) := by
      refine map_congr_left fun x mem => Prod.ext rfl (split_same ?_)
      have above := advance_above x mem
      rw [value_split]
      omega
    rw [advance,map_cons,map_cons,sampleAll,sample_hardware sized flag (small d mem_cons_self)]
    simp only [Option.bind_eq_bind,Option.bind_some,rest,tail,Nat.add_sub_cancel_left]

theorem wide_run : ∀ {ds : List Nat} {t : Nat} {needWrapCheck : Option Int}, (∀ d ∈ ds, d < 2^32) →
    sampleAll ⟨split t,split t,needWrapCheck⟩ ((advance t ds).map split) = some ((advance t ds).map fun x => (0,split x))
  | [],_,_,_ => rfl
  | d :: ds,t,needWrapCheck,small => by
    obtain ⟨flag,step⟩ := sample_wide t needWrapCheck (small d (.head _))
    have rest : sampleAll ⟨split (t+d),split (t+d),flag⟩ ((advance (t+d) ds).map split) = _ := wide_run (forall_mem_cons.mp small).2
    rw [advance,map_cons,map_cons,sampleAll,step]
    simp only [Option.bind_eq_bind,Option.bind_some,rest]

-- The 64-bit value follows a counter of 32 bits, and is a counter of 64 bits.
theorem counters_followed (ds : List Nat) (small : ∀ d ∈ ds, d < 2^32) (t : Nat) (current : U64) (sized : Sized current)
    (needWrapCheck : Option Int) : (needWrapCheck ≠ some 0 →
      sampleAll ⟨current,hardware t,needWrapCheck⟩ ((advance t ds).map hardware) =
        some ((advance t ds).map fun x => (0,split (value current+(x-t))))) ∧
    sampleAll ⟨split t,split t,needWrapCheck⟩ ((advance t ds).map split) = some ((advance t ds).map fun x => (0,split x)) :=
  ⟨fun flag => hardware_run sized flag small,wide_run small⟩

theorem counters_followed_wrap : sampleAll ⟨⟨7,4294967295⟩,hardware 4294967290,some 1⟩ [hardware 4294967300,hardware 4294967300] =
    some [(0,⟨8,9⟩),(0,⟨8,9⟩)] := by
  have follows := (counters_followed [10,0] (by decide) 4294967290 ⟨7,4294967295⟩ ⟨by decide,by decide⟩ (some 1)).1 (by decide)
  exact follows

-- A counter that wraps once and comes to its old value again.
theorem wrap_unseen : (5+2^32) / 2^32-5 / 2^32 = 1 ∧
    sampleAll ⟨split 5,hardware 5,some 1⟩ ((advance 5 [2^32]).map hardware) = some [(0,split 5)] ∧ split 5 ≠ split (5+2^32) := by
  decide

end NetSnmp.Counter64
