import SipxExternals.FoundationsInteraction

namespace Foundations

-- An address space. Every offset holds some octet; a buffer of n octets is the
-- part below n, and what lies above it is memory of somebody else.
abbrev Memory := Nat → UInt8

abbrev reads : Interface := ⟨Nat,fun _ => UInt8⟩

-- A deterministic program that inspects a memory octet by octet.
abbrev Probe (ε α : Type) := Interaction reads ε α

namespace Probe
open Interaction
variable {ε δ α β : Type}

def fetch (offset : Nat) : Probe ε UInt8 := perform offset

def fetchMany (offset : Nat) : Nat → Probe ε (List UInt8)
  | 0 => .done []
  | count+1 => do
    let octet ← fetch offset
    let octets ← fetchMany (offset+1) count
    return octet :: octets

def slice (memory : Memory) : Nat → Nat → List UInt8
  | _,0 => []
  | offset,count+1 => memory offset :: slice memory (offset+1) count

def Holds (memory : Memory) (offset : Nat) (octets : List UInt8) : Prop :=
  slice memory offset octets.length = octets

abbrev Within (bound : Nat) (part : Probe ε α) (memory : Memory) : Prop := Each (I := reads) (· < bound) part memory

@[simp] theorem run_fetch (offset : Nat) (memory : Memory) :
    (fetch offset : Probe ε UInt8).run memory = .ok (memory offset) := rfl

@[simp] theorem run_bind_fetch (offset : Nat) (follow : UInt8 → Probe ε β) (memory : Memory) :
    (fetch offset >>= follow).run memory = (follow (memory offset)).run memory := rfl

@[simp] theorem run_fetchMany (offset count : Nat) (memory : Memory) :
    (fetchMany offset count : Probe ε (List UInt8)).run memory = .ok (slice memory offset count) := by
  induction count generalizing offset with
  | zero => rfl
  | succ count ih =>
    rw [fetchMany,run_bind_fetch,run_bind_ok _ (ih (offset+1))]
    rfl

def Accepts (memory : Memory) (part : Probe ε α) : Prop := ∃ value, part.run memory = .ok value

@[simp] theorem accepts_done : Accepts memory (.done value : Probe ε α) := ⟨value,rfl⟩
@[simp] theorem accepts_pure : Accepts memory (pure value : Probe ε α) := ⟨value,rfl⟩
@[simp] theorem accepts_fail : ¬ Accepts memory (.fail fault : Probe ε α) := by
  rintro ⟨value,found⟩; cases found
@[simp] theorem accepts_bind_fetch :
    Accepts memory (fetch offset >>= follow) ↔ Accepts memory (follow (memory offset)) := .rfl

theorem accepts_bind_ok (found : first.run memory = .ok value) :
    Accepts memory (first >>= follow) ↔ Accepts memory (follow value) := by
  rw [Accepts,Accepts,run_bind_ok follow found]

theorem accepts_bind {first : Probe ε α} {follow : α → Probe ε β} :
    Accepts memory (first >>= follow) ↔ ∃ value, first.run memory = .ok value ∧ Accepts memory (follow value) := by
  constructor
  · rintro ⟨result,ran⟩
    obtain ⟨value,found,rest⟩ := run_bind_eq_ok.mp ran
    exact ⟨value,found,result,rest⟩
  · rintro ⟨value,found,result,rest⟩
    exact ⟨result,run_bind_eq_ok.mpr ⟨value,found,rest⟩⟩

@[simp] theorem accepts_bind_fetchMany :
    Accepts memory (fetchMany offset count >>= follow) ↔ Accepts memory (follow (slice memory offset count)) :=
  accepts_bind_ok (run_fetchMany offset count memory)

@[simp] theorem holds_nil : Holds memory offset [] := rfl

theorem holds_cons : Holds memory offset (octet :: octets) ↔
    memory offset = octet ∧ Holds memory (offset+1) octets := by
  simp [Holds,slice]

theorem holds_append : Holds memory offset (first++second) ↔
    Holds memory offset first ∧ Holds memory (offset+first.length) second := by
  induction first generalizing offset with
  | nil => simp
  | cons octet first ih =>
    simp only [List.cons_append,holds_cons,ih,List.length_cons,and_assoc]
    rw [show offset+1+first.length = offset+(first.length+1) by omega]

theorem slice_of_holds (held : Holds memory offset octets) (count : octets.length = size) :
    slice memory offset size = octets := by
  subst size; exact held

def image (octets : List UInt8) : Memory := fun offset => octets.getD offset 0

theorem holds_image_after (before : List UInt8) : Holds (image (before++octets)) before.length octets := by
  induction octets generalizing before with
  | nil => exact holds_nil
  | cons octet rest ih =>
    have tail := ih (before++[octet])
    rw [List.append_assoc,List.singleton_append,List.length_append,List.length_singleton] at tail
    exact holds_cons.mpr ⟨by simp [image],tail⟩

theorem holds_image (octets : List UInt8) : Holds (image octets) 0 octets := holds_image_after []

theorem within_agrees (inside : Within bound part memory)
    (same : ∀ offset, offset < bound → memory offset = other offset) :
    part.run other = part.run memory :=
  run_agrees fun offset mem => same offset (inside offset mem)

@[simp] theorem within_fetch : Within bound (fetch offset : Probe ε UInt8) memory ↔ offset < bound := each_perform

@[simp] theorem within_pure (value : α) : Within bound (pure value : Probe ε α) memory := each_pure value
@[simp] theorem within_fail (fault : ε) : Within bound (.fail fault : Probe ε α) memory := each_fail fault

@[simp] theorem within_attempt : Within bound (part.attempt : Probe δ (Except ε α)) memory ↔ Within bound part memory :=
  each_attempt

@[simp] theorem within_failWith : Within bound (part.failWith fault) memory ↔ Within bound part memory := each_failWith

theorem within_bind : Within bound (first >>= follow) memory ↔ Within bound first memory ∧
      ∀ value, first.run memory = .ok value → Within bound (follow value) memory := each_bind

@[simp] theorem within_bind_fetch : Within bound (fetch offset >>= follow) memory ↔
      offset < bound ∧ Within bound (follow (memory offset)) memory := each_bind_perform

@[simp] theorem within_fetchMany (offset count : Nat) :
    Within bound (fetchMany offset count : Probe ε (List UInt8)) memory ↔ count = 0 ∨ offset+count ≤ bound := by
  induction count generalizing offset with
  | zero => simp [fetchMany]
  | succ count ih =>
    rw [fetchMany,within_bind_fetch,within_bind,ih]
    simp only [within_pure,implies_true,and_true]
    omega

end Probe
end Foundations
