import Mathlib.Data.List.Basic

namespace Foundations.Odometer
open List

def spread (wheel : List α) (combinations : List (List α)) : List (List α) :=
  combinations.flatMap fun rest => wheel.map (· :: rest)

-- All combinations, the first wheel varying fastest.
def odometer : List (List α) → List (List α)
  | [] => [[]]
  | wheel :: rest => spread wheel (odometer rest)

def dropAtMost (p : α → Bool) : Nat → List α → List α
  | 0,list => list
  | _+1,[] => []
  | n+1,a :: list => if p a then dropAtMost p n list else a :: list

def Blank (p : α → Bool) (combination : List α) : Bool := combination.any p

def Leading (p : α → Bool) (list : List α) : Prop := list.Pairwise fun a b => p b = true → p a = true

instance (p : α → Bool) (list : List α) : Decidable (Leading p list) :=
  inferInstanceAs (Decidable (list.Pairwise fun a b => p b = true → p a = true))

section
variable {wheel : List α} {left right : List (List α)}

theorem spread_cons (wheel : List α) :
    spread wheel (rest :: combinations) = wheel.map (· :: rest)++spread wheel combinations := rfl

theorem spread_length (wheel : List α) : (spread wheel combinations).length = combinations.length*wheel.length := by
  induction combinations with
  | nil => simp [spread]
  | cons rest combinations ih =>
    rw [spread_cons,length_append,length_map,ih,length_cons,Nat.succ_mul]
    omega

theorem spread_injective (filled : wheel ≠ []) (same : spread wheel left = spread wheel right) : left = right := by
  have long := length_pos_of_ne_nil filled
  induction left generalizing right with
  | nil =>
    have length := congrArg length same
    rw [spread_length,spread_length,length_nil,Nat.zero_mul] at length
    rcases Nat.mul_eq_zero.mp length.symm with none | none
    · exact (length_eq_zero_iff.mp none).symm
    · omega
  | cons first left ih =>
    cases right with
    | nil =>
      have length := congrArg length same
      rw [spread_length,spread_length,length_nil,Nat.zero_mul] at length
      rcases Nat.mul_eq_zero.mp length with none | none
      · simp at none
      · omega
    | cons second right =>
      rw [spread_cons,spread_cons] at same
      obtain ⟨heads,tails⟩ := append_inj same (by simp)
      obtain ⟨a,wheel,rfl⟩ := exists_cons_of_ne_nil filled
      have head : a :: first = a :: second := by
        exact head_eq_of_cons_eq heads
      rw [ih tails,tail_eq_of_cons_eq head]

theorem spread_filter (wheel : List α) : (spread wheel combinations).filter (!Blank p ·) =
      spread (wheel.filter (!p ·)) (combinations.filter (!Blank p ·)) := by
  induction combinations with
  | nil => rfl
  | cons rest combinations ih =>
    rw [spread_cons,filter_append,ih,filter_map]
    cases blank : Blank p rest with
    | true =>
      have none : wheel.filter ((!Blank p ·) ∘ (· :: rest)) = [] := by
        rw [filter_eq_nil_iff]
        intro a _
        unfold Blank at blank ⊢
        simp [blank]
      rw [none,filter_cons_of_neg (by simp [blank])]
      rfl
    | false =>
      have same : ((!Blank p ·) ∘ (· :: rest)) = (!p ·) := by
        funext a
        unfold Blank at blank
        simp [Blank,blank]
      rw [same,filter_cons_of_pos (by simp [blank]),spread_cons]

end

theorem odometer_filter (p : α → Bool) (wheels : List (List α)) :
    (odometer wheels).filter (!Blank p ·) = odometer (wheels.map (filter (!p ·))) := by
  induction wheels with
  | nil => rfl
  | cons wheel wheels ih => rw [odometer,spread_filter,ih,map_cons,odometer]

theorem odometer_single (wheels : List (List α)) :
    (odometer wheels).length = 1 ↔ ∀ wheel ∈ wheels, wheel.length = 1 := by
  induction wheels with
  | nil => simp [odometer]
  | cons wheel wheels ih =>
    rw [odometer,spread_length,forall_mem_cons,← ih]
    constructor
    · intro product
      exact ⟨Nat.eq_one_of_mul_eq_one_left product,Nat.eq_one_of_mul_eq_one_right product⟩
    · rintro ⟨here,rest⟩
      rw [here,rest]

theorem odometer_filled (filled : ∀ wheel ∈ wheels, wheel ≠ []) : 0 < (odometer wheels).length := by
  induction wheels with
  | nil => simp [odometer]
  | cons wheel wheels ih =>
    obtain ⟨here,rest⟩ := forall_mem_cons.mp filled
    rw [odometer,spread_length]
    exact Nat.mul_pos (ih rest) (length_pos_of_ne_nil here)

section
variable {p : α → Bool} {wheel : List α} {combinations : List (List α)}

theorem leading_filter (leading : Leading p list) : list = list.filter p++list.filter (!p ·) := by
  induction list with
  | nil => rfl
  | cons a list ih =>
    obtain ⟨first,rest⟩ := pairwise_cons.mp leading
    cases blank : p a with
    | true =>
      rw [filter_cons_of_pos blank,filter_cons_of_neg (by simp [blank]),cons_append,← ih rest]
    | false =>
      have none : list.filter p = [] := by
        rw [filter_eq_nil_iff]
        intro b mem found
        simp [blank] at first
        exact absurd found (by simp [first b mem])
      rw [filter_cons_of_neg (by simp [blank]),filter_cons_of_pos (by simp [blank]),none,nil_append]
      have others := ih rest
      rw [none,nil_append] at others
      rw [← others]

theorem leading_last (leading : Leading p list) :
    (list.Pairwise fun a _ => p a = true) ↔ (list.filter (!p ·)).length ≤ 1 := by
  have few : (list.filter (!p ·)).length ≤ 1 ↔ (list.filter (!p ·)).Pairwise fun _ _ => False := by
    cases list.filter (!p ·) with
    | nil => simp
    | cons a rest =>
      cases rest with
      | nil => simp
      | cons b rest =>
        refine ⟨fun short => absurd short (by simp),fun apart => ?_⟩
        exact absurd ((pairwise_cons.mp apart).1 b (.head _ ..)) id
  rw [few,pairwise_filter]
  constructor
  · intro blanks
    refine blanks.imp ?_
    intro a b blank good
    simp [blank] at good
  intro apart
  refine (leading.and apart).imp ?_
  rintro a b ⟨order,apart⟩
  cases first : p a with
  | true => rfl
  | false =>
    cases second : p b with
    | true => exact absurd (order second) (by simp [first])
    | false => exact absurd (by simp [second]) (apart (by simp [first]))

theorem leading_spread (good : ∃ a ∈ wheel, p a = false) (whole : ∃ c ∈ combinations, Blank p c = false) :
    Leading (Blank p) (spread wheel combinations) ↔ Leading (Blank p) combinations ∧ Leading p wheel ∧
      ((∃ a ∈ wheel, p a = true) → (combinations.filter (!Blank p ·)).length ≤ 1) := by
  obtain ⟨a,inside,plain⟩ := good
  obtain ⟨c,mem,clear⟩ := whole
  have split : Leading (Blank p) (spread wheel combinations) ↔
      (∀ rest ∈ combinations, wheel.Pairwise fun a b => Blank p (b :: rest) = true → Blank p (a :: rest) = true) ∧
      combinations.Pairwise fun front back => ∀ a ∈ wheel, ∀ b ∈ wheel,
        Blank p (b :: back) = true → Blank p (a :: front) = true := by
    unfold Leading spread
    simp only [pairwise_flatMap,pairwise_map,forall_mem_map]
  rw [split]
  constructor
  · rintro ⟨within,across⟩
    have order : Leading (Blank p) combinations := by
      refine across.imp ?_
      intro front back ordered blank
      have both := ordered a inside a inside (by simpa [Blank,plain] using blank)
      simpa [Blank,plain] using both
    refine ⟨order,?_,?_⟩
    · refine (within c mem).imp ?_
      intro a b ordered blank
      unfold Blank at clear ordered
      simpa [clear,blank] using ordered
    rintro ⟨b,blankIn,blank⟩
    rw [← leading_last order]
    refine across.imp ?_
    intro front back ordered
    have both := ordered a inside b blankIn (by simp [Blank,blank])
    simpa [Blank,plain] using both
  rintro ⟨order,leading,few⟩
  refine ⟨?_,?_⟩
  · intro rest _
    refine leading.imp ?_
    intro a b ordered
    cases blank : rest.any p with
    | true => simp [Blank,blank]
    | false => simpa [Blank,blank] using ordered
  by_cases blankIn : ∃ a ∈ wheel, p a = true
  · refine ((leading_last order).mpr (few blankIn)).imp ?_
    intro front back blank x _ y _ _
    unfold Blank at blank
    simp [Blank,blank]
  refine order.imp ?_
  intro front back ordered x _ y yIn blank
  have clear : p y = false := by
    cases found : p y with
    | true => exact absurd ⟨y,yIn,found⟩ blankIn
    | false => rfl
  have behind : Blank p back = true := by simpa [Blank,clear] using blank
  have before := ordered behind
  unfold Blank at before
  simp [Blank,before]

theorem dropAtMost_front (p : α → Bool) (n : Nat) (list : List α) :
    ∃ front, list = front++dropAtMost p n list ∧ front.length ≤ n ∧ ∀ a ∈ front, p a = true := by
  induction n generalizing list with
  | zero => exact ⟨[],rfl,Nat.le_refl _,by simp⟩
  | succ n ih =>
    cases list with
    | nil => exact ⟨[],rfl,Nat.zero_le _,by simp⟩
    | cons a list =>
      rw [dropAtMost]
      cases blank : p a with
      | true =>
        obtain ⟨front,same,short,blanks⟩ := ih list
        refine ⟨a :: front,?_,Nat.succ_le_succ short,forall_mem_cons.mpr ⟨blank,blanks⟩⟩
        rw [if_pos rfl,cons_append,← same]
      | false => exact ⟨[],by simp,Nat.zero_le _,by simp⟩

theorem dropAtMost_append (filled : target ≠ []) (clear : ∀ a ∈ target, p a = false)
    (blanks : ∀ a ∈ front, p a = true) (short : front.length ≤ n) : dropAtMost p n (front++target) = target := by
  induction front generalizing n with
  | nil =>
    cases n with
    | zero => rfl
    | succ n =>
      obtain ⟨a,target,rfl⟩ := exists_cons_of_ne_nil filled
      rw [nil_append,dropAtMost,if_neg (by simp [clear a (.head _ ..)])]
  | cons a front ih =>
    obtain ⟨here,rest⟩ := forall_mem_cons.mp blanks
    cases n with
    | zero => simp at short
    | succ n =>
      rw [cons_append,dropAtMost,if_pos here]
      exact ih rest (Nat.le_of_succ_le_succ short)

theorem dropAtMost_exact (filled : target ≠ []) (clear : ∀ a ∈ target, p a = false) : dropAtMost p n list = target ↔
      Leading p list ∧ list.filter (!p ·) = target ∧ (list.filter p).length ≤ n := by
  constructor
  · rintro rfl
    obtain ⟨front,same,short,blanks⟩ := dropAtMost_front p n list
    generalize dropAtMost p n list = target at clear same
    subst same
    have none : target.filter p = [] := filter_eq_nil_iff.mpr (by simpa using clear)
    have all : target.filter (!p ·) = target := filter_eq_self.mpr (by simpa using clear)
    have gone : front.filter (!p ·) = [] := filter_eq_nil_iff.mpr (by simpa using blanks)
    refine ⟨?_,by rw [filter_append,all,gone,nil_append],?_⟩
    · refine pairwise_append.mpr ⟨?_,?_,?_⟩
      · exact pairwise_of_forall_mem_list fun a inside _ _ _ => blanks a inside
      · exact pairwise_of_forall_mem_list fun a _ b inside blank => absurd blank (by simp [clear b inside])
      · exact fun a inside _ _ _ => blanks a inside
    · rw [filter_append,none,append_nil]
      exact Nat.le_trans (length_filter_le _ _) short
  · rintro ⟨leading,rfl,short⟩
    have parts := leading_filter leading
    generalize fronts : list.filter p = front at parts short
    generalize list.filter (!p ·) = target at parts filled clear
    rw [parts]
    refine dropAtMost_append filled clear ?_ short
    rw [← fronts]
    exact fun a inside => (mem_filter.mp inside).2

end

end Foundations.Odometer
