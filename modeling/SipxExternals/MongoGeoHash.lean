import Mathlib.Order.MinMax

namespace Mongo.Geo
open BitVec List

structure GeoHash where
  hash : BitVec 64
  bits : Nat
  deriving DecidableEq

-- mask64For selects one bit, counted from the most significant one.
def getBit (g : GeoHash) (pos : Nat) : Bool := g.hash.getMsbD pos
def getBitX (g : GeoHash) (pos : Nat) : Bool := getBit g (pos*2)
def getBitY (g : GeoHash) (pos : Nat) : Bool := getBit g (pos*2+1)

-- A shift by 64 is one by 0.
def clearUnusedBits (g : GeoHash) : GeoHash := { g with hash := g.hash &&& (BitVec.allOnes 64 <<< ((64-g.bits*2)%64)) }

-- A failed verify is none.
def hasPrefix (g other : GeoHash) : Option Bool :=
  if other.bits > g.bits then none
  else if other.bits = 0 then some true
  else some ((other.hash ^^^ g.hash).sshiftRight (64-other.bits*2) == 0)

def sameBits (a b : GeoHash) (i : Nat) : Bool := getBitX a i == getBitX b i && getBitY a i == getBitY b i

-- Where the loop stops: at the first difference, or at the end of the shorter one.
def matching (a b : GeoHash) : Nat := (List.range (min a.bits b.bits)).findIdx fun i => !sameBits a b i

def commonPrefix (a b : GeoHash) : GeoHash := clearUnusedBits ⟨a.hash,matching a b⟩

structure Cleared (g : GeoHash) : Prop where
  fits : g.bits ≤ 32
  unused : ∀ k, g.bits*2 ≤ k → getBit g k = false

structure LongestPrefix (a b c : GeoHash) : Prop where
  cleared : Cleared c
  first : hasPrefix a c = some true
  second : hasPrefix b c = some true
  longest : ∀ p, Cleared p → hasPrefix a p = some true → hasPrefix b p = some true → p.bits ≤ c.bits

theorem matching_comm (a : GeoHash) : matching a b = matching b a := by
  simp [matching,sameBits,Bool.beq_comm,min_comm]

theorem matching_le (a b : GeoHash) : matching a b ≤ min a.bits b.bits :=
  findIdx_le_length.trans_eq length_range

theorem matching_same (low : k < matching a b*2) : getBit a k = getBit b k := by
  have least := not_of_lt_findIdx (show k/2 < matching a b by omega)
  simp only [getElem_range,Bool.not_eq_false',sameBits,Bool.and_eq_true,beq_iff_eq] at least
  rcases Nat.mod_two_eq_zero_or_one k with even | odd
  · rw [show k = k/2*2 by omega]
    exact least.1
  · rw [show k = k/2*2+1 by omega]
    exact least.2

theorem matching_stop (less : matching a b < min a.bits b.bits) (same : ∀ k < (matching a b+1)*2, getBit a k = getBit b k) : False := by
  have small := less.trans_eq length_range.symm
  unfold matching at small
  have here := findIdx_getElem (w := small)
  rw [getElem_range] at here
  have differ : (!sameBits a b (matching a b)) = true := here
  simp [sameBits,getBitX,getBitY,same (matching a b*2) (by omega),same (matching a b*2+1) (by omega)] at differ

theorem common_bits (some_bits : 0 < matching a b) (fits : a.bits ≤ 32) (k : Nat) :
    getBit (commonPrefix a b) k = (getBit a k && decide (k < matching a b*2)) := by
  have low := matching_le a b
  have shift : (64-matching a b*2)%64 = 64-matching a b*2 := by omega
  simp only [getBit,commonPrefix,clearUnusedBits,shift,getMsbD_and,getMsbD_shiftLeft,getMsbD_allOnes]
  congr 2
  rw [eq_iff_iff]
  omega

theorem common_none (zero : matching a b = 0) : commonPrefix a b = ⟨a.hash,0⟩ := by
  simp only [commonPrefix,clearUnusedBits,zero,Nat.zero_mul,Nat.sub_zero,Nat.mod_self,shiftLeft_zero,and_allOnes]

theorem common_comm (some_bits : 0 < matching a b) (first : a.bits ≤ 32) (second : b.bits ≤ 32) : commonPrefix a b = commonPrefix b a := by
  have hashes : (commonPrefix a b).hash = (commonPrefix b a).hash := eq_of_getMsbD_eq fun k _ => by
    refine (common_bits some_bits first k).trans (Eq.trans ?_ (common_bits (matching_comm a ▸ some_bits) second k).symm)
    rw [matching_comm b]
    by_cases small : k < matching a b*2
    · rw [matching_same small]
    · simp [small]
  exact (GeoHash.mk.injEq ..).mpr ⟨hashes,matching_comm a⟩

theorem hasPrefix_iff (fits : p.bits ≤ 32) : hasPrefix g p = some true ↔
    p.bits ≤ g.bits ∧ ∀ k < p.bits*2, getBit g k = getBit p k := by
  rw [hasPrefix]
  split
  · simp only [reduceCtorEq,false_iff]
    omega
  split
  · rename_i low zero
    simp [zero]
  rename_i low some_bits
  simp only [Option.some.injEq,beq_iff_eq,not_lt.mp low,true_and,getBit]
  constructor
  · intro zero k low
    have here := congrArg (·.getMsbD (k+(64-p.bits*2))) zero
    simp only [getMsbD_sshiftRight,getMsbD_xor] at here
    rw [decide_eq_true (by omega),if_neg (by omega),Nat.add_sub_cancel] at here
    exact Eq.symm (by simpa using here)
  · intro same
    refine eq_of_getMsbD_eq fun k small => ?_
    simp only [getMsbD_sshiftRight,msb_eq_getMsbD_zero,getMsbD_xor]
    split
    · simp [same 0 (by omega)]
    · simp [same (k-(64-p.bits*2)) (by omega)]

theorem commonPrefix_longest (a b : GeoHash) (first : Cleared a) (second : Cleared b) :
    LongestPrefix a b (commonPrefix a b) ∧ commonPrefix a b = commonPrefix b a ↔
      (a.hash = 0 ∧ b.hash = 0) ∨ (0 < a.bits ∧ 0 < b.bits ∧ getBitX a 0 = getBitX b 0 ∧ getBitY a 0 = getBitY b 0) := by
  have low := matching_le a b
  have fits := first.fits
  have longest : ∀ p, Cleared p → hasPrefix a p = some true → hasPrefix b p = some true → p.bits ≤ matching a b := by
    intro p cleared one two
    rw [hasPrefix_iff cleared.fits] at one two
    by_contra more
    exact matching_stop (by omega) fun k small => (one.2 k (by omega)).trans (two.2 k (by omega)).symm
  have size : (commonPrefix a b).bits = matching a b := rfl
  rcases Nat.eq_zero_or_pos (matching a b) with zero | some_bits
  · -- Nothing is shared, and nothing is cleared.
    rw [common_none zero,common_none (matching_comm a ▸ zero)]
    constructor
    · rintro ⟨good,same⟩
      have empty : a.hash = 0 := eq_of_getMsbD_eq fun k _ => (good.cleared.unused k (Nat.zero_le _)).trans (by simp)
      exact .inl ⟨empty,(congrArg GeoHash.hash same).symm.trans empty⟩
    · rintro (⟨one,two⟩ | ⟨one,two,x,y⟩)
      · rw [one,two]
        exact ⟨⟨⟨by decide,fun k _ => by simp [getBit]⟩,by simp [hasPrefix],by simp [hasPrefix],zero ▸ longest⟩,rfl⟩
      · refine (matching_stop (a := a) (b := b) (by omega) fun k small => ?_).elim
        obtain rfl | rfl : k = 0 ∨ k = 1 := by omega
        · exact x
        · exact y
  · have bits := common_bits some_bits fits
    refine iff_of_true ⟨⟨⟨by omega,fun k above => ?_⟩,?_,?_,longest⟩,common_comm some_bits fits second.fits⟩
      (.inr ⟨by omega,by omega,matching_same (by omega),matching_same (by omega)⟩)
    · simp [bits,← size,above]
    · refine (hasPrefix_iff (by omega)).mpr ⟨by omega,fun k small => ?_⟩
      simp [bits,← size,small]
    · refine (hasPrefix_iff (by omega)).mpr ⟨by omega,fun k small => ?_⟩
      simp [bits,← size,small,matching_same small]

theorem prefixes_differ : commonPrefix ⟨9223372036854775808,1⟩ ⟨0,1⟩ = ⟨9223372036854775808,0⟩ ∧
    commonPrefix ⟨0,1⟩ ⟨9223372036854775808,1⟩ = ⟨0,0⟩ := by
  decide

theorem commonPrefix_longest_zero : commonPrefix ⟨0,1⟩ ⟨0,2⟩ = commonPrefix ⟨0,2⟩ ⟨0,1⟩ :=
  ((commonPrefix_longest ⟨0,1⟩ ⟨0,2⟩ ⟨by decide,by simp [getBit]⟩ ⟨by decide,by simp [getBit]⟩).mpr (.inl ⟨rfl,rfl⟩)).2

structure GeoBitSets where
  currAllX : BitVec 64
  currAllY : BitVec 64
  allX : List (BitVec 64)
  allY : List (BitVec 64)

def GeoBitSets.fill (sets : GeoBitSets) (i : Nat) : GeoBitSets :=
  let thisBit := 1#64 <<< (63-i)
  if i%2 = 0 then { sets with allX := sets.allX.set (i/2) sets.currAllX, currAllX := sets.currAllX ||| thisBit }
  else { sets with allY := sets.allY.set (i/2) sets.currAllY, currAllY := sets.currAllY ||| thisBit }

def geoBitSets : GeoBitSets := (List.range 64).foldl GeoBitSets.fill ⟨0,0,replicate 32 0,replicate 32 0⟩

-- No value where the table is read outside its bounds.
def atMin (all : List (BitVec 64)) (g : GeoHash) : Option Bool := all[g.bits]?.map fun mask => decide (g.hash &&& mask = 0)
def atMax (all : List (BitVec 64)) (g : GeoHash) : Option Bool := all[g.bits]?.map fun mask => decide (g.hash &&& mask = mask)
def atMinX : GeoHash → Option Bool := atMin geoBitSets.allX
def atMinY : GeoHash → Option Bool := atMin geoBitSets.allY
def atMaxX : GeoHash → Option Bool := atMax geoBitSets.allX
def atMaxY : GeoHash → Option Bool := atMax geoBitSets.allY

def Alternating (all : List (BitVec 64)) (off : Nat) : Prop :=
  all.length = 32 ∧ ∀ b < 32, ∀ k < 64, (all.getD b 0).getMsbD k = decide (k%2 = off ∧ k/2 < b)

theorem allX_alternating : Alternating geoBitSets.allX 0 := by
  unfold Alternating
  decide +kernel

theorem allY_alternating : Alternating geoBitSets.allY 1 := by
  unfold Alternating
  decide +kernel

theorem masked (same : ∀ k < 64, mask.getMsbD k = decide (k%2 = off ∧ k/2 < b)) (inside : b < 32) (low : off < 2)
    (g : GeoHash) (value : Bool) : g.hash &&& mask = (if value then mask else 0) ↔
      ∀ i < b, getBit g (i*2+off) = value := by
  constructor
  · intro equal i small
    have bit := congrArg (BitVec.getMsbD · (i*2+off)) equal
    have set : mask.getMsbD (i*2+off) = true := by
      rw [same _ (by omega),decide_eq_true_eq]
      omega
    cases value <;> simpa [set,getBit] using bit
  · intro all
    refine BitVec.eq_of_getMsbD_eq fun k small => ?_
    rw [getMsbD_and,same k small]
    by_cases used : k%2 = off ∧ k/2 < b
    · have here := all (k/2) used.2
      rw [show k/2*2+off = k by omega,getBit] at here
      cases value <;> simp [here,same k small,used]
    · cases value <;> simp [same k small,used]

theorem atMin_exact {all : List (BitVec 64)} (alternating : Alternating all off) (low : off < 2) (g : GeoHash) (inside : g.bits < 32) :
    atMin all g = some (decide (∀ i < g.bits, getBit g (i*2+off) = false)) ∧
    atMax all g = some (decide (∀ i < g.bits, getBit g (i*2+off) = true)) := by
  obtain ⟨length,bits⟩ := alternating
  have here : all[g.bits]? = some (all.getD g.bits 0) := by
    rw [getD_eq_getElem?_getD,List.getElem?_eq_getElem (length ▸ inside)]
    rfl
  have reads := masked (bits g.bits inside) inside low g
  rw [atMin,atMax,here]
  exact ⟨congrArg some (decide_eq_decide.mpr (reads false)),congrArg some (decide_eq_decide.mpr (reads true))⟩

theorem corners_exact (g : GeoHash) : (atMinX g = some (decide (∀ i < g.bits, getBitX g i = false)) ∧
    atMaxX g = some (decide (∀ i < g.bits, getBitX g i = true)) ∧
    atMinY g = some (decide (∀ i < g.bits, getBitY g i = false)) ∧
    atMaxY g = some (decide (∀ i < g.bits, getBitY g i = true))) ↔ g.bits ≤ 31 := by
  constructor
  · rintro ⟨found,_⟩
    by_contra outside
    rw [atMinX,atMin,List.getElem?_eq_none (by rw [allX_alternating.1]; omega)] at found
    cases found
  · intro inside
    have x := atMin_exact allX_alternating (by decide) g (by omega)
    have y := atMin_exact allY_alternating (by decide) g (by omega)
    exact ⟨x.1,x.2,y.1,y.2⟩

theorem finest_corner_unread : atMinX ⟨0,32⟩ = none := by decide +kernel

end Mongo.Geo
