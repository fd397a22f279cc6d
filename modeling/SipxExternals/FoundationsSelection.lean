import Mathlib.Data.List.Basic
import Mathlib.Data.Prod.Lex
import Mathlib.Order.Lattice

namespace Foundations.Selection
open List hiding after below cons head le_of_lt le_trans lt_of_le_of_lt lt_trans nil not_le not_lt replace tail
variable {α : Type}

-- One pass over a list that keeps a current choice and lets a candidate take its place.
def keep (replace : α → α → Bool) : Option α → α → Option α
  | none,candidate => some candidate
  | some current,candidate => if replace current candidate then some candidate else some current

def select (replace : α → α → Bool) (start : Option α) (candidates : List α) : Option α :=
  candidates.foldl (keep replace) start

section
variable (replace : α → α → Bool) (start : Option α)
include replace start

@[simp] theorem select_nil : select replace start [] = start := rfl

@[simp] theorem select_cons :
    select replace start (candidate :: rest) = select replace (keep replace start candidate) rest := rfl

theorem select_append : select replace start (first++second) = select replace (select replace start first) second :=
  foldl_append

theorem keep_some : ∃ kept, keep replace start candidate = some kept := by
  cases start with
  | none => exact ⟨candidate,rfl⟩
  | some current =>
    rw [keep]
    split
    · exact ⟨candidate,rfl⟩
    · exact ⟨current,rfl⟩

end

theorem keep_cases (kept : keep replace start candidate = some chosen) : chosen = candidate ∨ start = some chosen := by
  cases start with
  | none => exact .inl (Option.some.inj kept).symm
  | some current =>
    rw [keep] at kept
    split at kept
    · exact .inl (Option.some.inj kept).symm
    · exact .inr kept

theorem select_mem (chosen : select replace start candidates = some best) : best ∈ candidates ∨ start = some best := by
  induction candidates generalizing start with
  | nil => exact .inr chosen
  | cons candidate rest ih =>
    rcases ih chosen with later | here
    · exact .inl (.tail _ later)
    · rcases keep_cases here with rfl | before
      · exact .inl (.head _)
      · exact .inr before

theorem select_some (replace : α → α → Bool) (current : α) (candidates : List α) :
    ∃ best, select replace (some current) candidates = some best := by
  induction candidates generalizing current with
  | nil => exact ⟨current,rfl⟩
  | cons candidate rest ih =>
    obtain ⟨kept,chosen⟩ := keep_some replace (some current)
    rw [select_cons,chosen]
    exact ih kept

theorem select_eq_none : select replace none candidates = none ↔ candidates = [] := by
  cases candidates with
  | nil => simp
  | cons candidate rest =>
    obtain ⟨best,chosen⟩ := select_some replace candidate rest
    simp [keep,chosen]

theorem select_map (candidates : List γ) :
    (select (fun current candidate => replace (view current) (view candidate)) start candidates).map view =
      select replace (start.map view) (candidates.map view) := by
  induction candidates generalizing start with
  | nil => rfl
  | cons candidate rest ih =>
    rw [select_cons,ih,map_cons,select_cons]
    cases start with
    | none => rfl
    | some current =>
      rw [keep,Option.map_some,keep]
      split
      · rfl
      · rfl

theorem select_stays (silent : ∀ other ∈ candidates, replace current other = false) :
    select replace (some current) candidates = some current := by
  induction candidates with
  | nil => rfl
  | cons candidate rest ih =>
    have still : ¬ replace current candidate = true := by simp [silent candidate mem_cons_self]
    rw [select_cons,keep,if_neg still]
    exact ih (forall_mem_cons.mp silent).2

theorem select_moves (mem : other ∈ candidates) (replaced : replace current other = true)
    (chosen : select replace (some current) candidates = some best) : best ∈ candidates := by
  induction candidates with
  | nil => cases mem
  | cons candidate rest ih =>
    rw [select_cons,keep] at chosen
    split at chosen
    · rcases select_mem chosen with later | here
      · exact .tail _ later
      · exact mem_cons.mpr (.inl (Option.some.inj here).symm)
    rename_i still
    cases mem with
    | head => exact absurd replaced still
    | tail _ mem => exact .tail _ (ih mem chosen)

section
variable {β : Type} [LinearOrder β] {replace : α → α → Bool} {rank : α → β}

theorem select_highest (up : ∀ current candidate, rank current < rank candidate → replace current candidate = true)
    (down : ∀ current candidate, replace current candidate = true → rank current ≤ rank candidate)
    (chosen : select replace start candidates = some best) :
    (∀ candidate ∈ candidates, rank candidate ≤ rank best) ∧
      ∀ current, start = some current → rank current ≤ rank best := by
  induction candidates generalizing start with
  | nil => exact ⟨by simp,fun current is => by rw [is] at chosen; exact le_of_eq (by rw [Option.some.inj chosen])⟩
  | cons candidate rest ih =>
    obtain ⟨others,kept⟩ := ih chosen
    have step : rank candidate ≤ rank best ∧ ∀ current, start = some current → rank current ≤ rank best := by
      cases start with
      | none => exact ⟨kept candidate rfl,by simp⟩
      | some current =>
        by_cases replaced : replace current candidate = true
        · have now := kept candidate (by rw [keep,if_pos replaced])
          refine ⟨now,fun before is => ?_⟩
          cases is
          exact le_trans (down current candidate replaced) now
        have now := kept current (by rw [keep,if_neg replaced])
        have lower : rank candidate ≤ rank current := not_lt.mp fun higher => replaced (up current candidate higher)
        refine ⟨le_trans lower now,fun before is => ?_⟩
        cases is
        exact now
    refine ⟨fun other mem => ?_,step.2⟩
    cases mem with
    | head => exact step.1
    | tail _ mem => exact others other mem

def highest (rank : α → β) (candidates : List α) : List α :=
  candidates.filter fun candidate => candidates.all fun other => rank other ≤ rank candidate

theorem mem_highest : best ∈ highest rank candidates ↔
    best ∈ candidates ∧ ∀ other ∈ candidates, rank other ≤ rank best := by
  simp [highest]

theorem exists_last_highest (rank : α → β) (some_candidate : candidates ≠ []) :
    ∃ before last after, candidates = before++last :: after ∧ (∀ other ∈ before, rank other ≤ rank last) ∧
      ∀ other ∈ after, rank other < rank last := by
  induction candidates with
  | nil => exact absurd rfl some_candidate
  | cons candidate rest ih =>
    cases rest with
    | nil => exact ⟨[],candidate,[],rfl,by simp,by simp⟩
    | cons second rest =>
      obtain ⟨before,last,after,split,lower,below⟩ := ih (by simp)
      rw [split]
      rcases lt_or_ge (rank last) (rank candidate) with higher | lower_first
      · refine ⟨[],candidate,_,rfl,by simp,forall_mem_append.mpr ⟨fun other mem => ?_,forall_mem_cons.mpr ⟨higher,fun other mem => ?_⟩⟩⟩
        · exact lt_of_le_of_lt (lower other mem) higher
        · exact lt_trans (below other mem) higher
      · exact ⟨candidate :: before,last,after,rfl,forall_mem_cons.mpr ⟨lower_first,lower⟩,below⟩

theorem last_highest (split : candidates = before++last :: after) (lower : ∀ other ∈ before, rank other ≤ rank last)
    (below : ∀ other ∈ after, rank other < rank last) : last ∈ highest rank candidates := by
  rw [split]
  refine mem_highest.mpr ⟨by simp,forall_mem_append.mpr ⟨lower,forall_mem_cons.mpr ⟨le_rfl,fun other mem => ?_⟩⟩⟩
  exact (below other mem).le

theorem mem_highest_highest [LinearOrder γ] (first : α → β) (second : α → γ) (candidates : List α) (best : α) :
    best ∈ highest second (highest first candidates) ↔
      best ∈ highest (fun candidate => toLex (first candidate,second candidate)) candidates := by
  rw [mem_highest,mem_highest,mem_highest]
  constructor
  · rintro ⟨⟨mem,top⟩,rest⟩
    refine ⟨mem,fun other inList => Prod.Lex.toLex_le_toLex.mpr ?_⟩
    rcases lt_or_eq_of_le (top other inList) with lower | same
    · exact .inl lower
    · refine .inr ⟨same,rest other (mem_highest.mpr ⟨inList,fun third present => ?_⟩)⟩
      exact same ▸ top third present
  rintro ⟨mem,top⟩
  have first_top : ∀ other ∈ candidates, first other ≤ first best := fun other inList =>
    (Prod.Lex.toLex_le_toLex.mp (top other inList)).elim le_of_lt fun both => both.1.le
  refine ⟨⟨mem,first_top⟩,fun other inList => ?_⟩
  obtain ⟨present,other_top⟩ := mem_highest.mp inList
  rcases Prod.Lex.toLex_le_toLex.mp (top other present) with lower | both
  · exact absurd (other_top best mem) (not_le.mpr lower)
  · exact both.2

theorem highest_highest [LinearOrder γ] {first : α → β} {second : α → γ} : highest second (highest first candidates) =
      highest (fun candidate => toLex (first candidate,second candidate)) candidates := by
  have same := mem_highest_highest first second candidates
  rw [highest,highest,filter_filter,highest]
  refine filter_congr fun candidate mem => ?_
  have both := same candidate
  rw [highest,highest,filter_filter,highest,mem_filter,mem_filter] at both
  rw [Bool.eq_iff_iff]
  simpa [mem] using both

-- A pass that never misses a higher rank and does not tell equal ranks apart, though it
-- may step down.
structure Climbs (valid : α → Prop) (replace : α → α → Bool) (rank : α → β) : Prop where
  up : ∀ current candidate, valid current → valid candidate →
    rank current < rank candidate → replace current candidate = true
  level : ∀ current candidate, valid current → valid candidate →
    rank current = rank candidate → replace current candidate = false
  respects : ∀ current twin candidate, valid current → valid twin → valid candidate →
    rank current = rank twin → replace current candidate = replace twin candidate

variable {valid : α → Prop}

theorem climb_to (climbs : Climbs valid replace rank) (all_valid : ∀ candidate ∈ before++[last], valid candidate)
    (lower : ∀ other ∈ before, rank other ≤ rank last) :
    ∃ current ∈ before++[last], select replace none (before++[last]) = some current ∧ rank current = rank last := by
  have last_valid := all_valid last (by simp)
  rw [select_append,select_cons,select_nil]
  cases chosen : select replace none before with
  | none => exact ⟨last,by simp,rfl,rfl⟩
  | some current =>
    have mem := (select_mem chosen).resolve_right (by simp)
    have current_valid := all_valid current (by simp [mem])
    rcases lt_or_eq_of_le (lower current mem) with below | same
    · exact ⟨last,by simp,by rw [keep,if_pos (climbs.up _ _ current_valid last_valid below)],rfl⟩
    · refine ⟨current,by simp [mem],?_,same⟩
      rw [keep,climbs.level _ _ current_valid last_valid same]
      rfl

-- The pass ends at the highest rank exactly if nothing behind the last candidate of that
-- rank takes its place.
theorem select_highest_iff (climbs : Climbs valid replace rank)
    (split : candidates = before++last :: after) (all_valid : ∀ candidate ∈ candidates, valid candidate)
    (lower : ∀ other ∈ before, rank other ≤ rank last) (below : ∀ other ∈ after, rank other < rank last)
    (chosen : select replace none candidates = some best) :
    best ∈ highest rank candidates ↔ ∀ other ∈ after, replace last other = false := by
  subst split
  rw [append_cons] at chosen all_valid
  obtain ⟨current,mem,reached,same⟩ := climb_to climbs
    (forall_mem_append.mp all_valid).1 lower
  rw [select_append,reached] at chosen
  have twin : ∀ other ∈ after, replace current other = replace last other := fun other inList =>
    climbs.respects _ _ _ (all_valid _ (mem_append_left _ mem)) (all_valid _ (by simp))
      (all_valid _ (mem_append_right _ inList)) same
  constructor
  · intro top other inList
    cases taken : replace last other with
    | false => rfl
    | true =>
      have best_after := select_moves inList ((twin other inList).trans taken) chosen
      exact absurd ((mem_highest.mp top).2 last (by simp)) (not_le.mpr (below best best_after))
  intro silent
  rw [select_stays fun other inList => (twin other inList).trans (silent other inList)] at chosen
  obtain rfl : current = best := Option.some.inj chosen
  rw [mem_highest,append_cons]
  refine ⟨mem_append_left _ mem,fun other inList => ?_⟩
  rw [same]
  rcases mem_append.mp inList with early | late
  · rcases mem_append.mp early with early | here
    · exact lower other early
    · exact (mem_singleton.mp here) ▸ le_rfl
  · exact (below other late).le

theorem highest_perm (perm : List.Perm order candidates) : best ∈ highest rank order ↔ best ∈ highest rank candidates := by
  simp [mem_highest,perm.mem_iff]

theorem exists_perm_pair (first_in : first ∈ pool) (second_in : second ∈ pool) (differ : second ≠ first) :
    ∃ rest : List α, List.Perm (rest++[first,second]) pool := by
  classical
  have behind : second ∈ pool.erase first := (mem_erase_of_ne differ).mpr second_in
  refine ⟨(pool.erase first).erase second,perm_append_comm.trans ?_⟩
  exact ((perm_cons_erase behind).symm.cons first).trans (perm_cons_erase first_in).symm

theorem select_every_order (climbs : Climbs (fun candidate => accept candidate = true) replace rank) :
    (∀ order, List.Perm order pool → ∀ best, select replace none (order.filter accept) = some best →
      best ∈ highest rank (order.filter accept)) ↔
    ∀ best ∈ highest rank (pool.filter accept), ∀ other ∈ pool.filter accept, replace best other = false := by
  have accepted : ∀ order : List α, ∀ candidate ∈ order.filter accept, accept candidate = true :=
    fun order candidate mem => (mem_filter.mp mem).2
  constructor
  · intro always best top other mem
    cases taken : replace best other with
    | false => rfl
    | true =>
      obtain ⟨best_in,highest_in⟩ := mem_highest.mp top
      have level_false := climbs.level best other (accepted _ _ best_in) (accepted _ _ mem)
      have differ : rank best ≠ rank other := fun same => by
        rw [level_false same] at taken
        cases taken
      have below := lt_of_le_of_ne (highest_in other mem) (Ne.symm differ)
      obtain ⟨rest,perm⟩ := exists_perm_pair (mem_filter.mp best_in).1 (mem_filter.mp mem).1
        (fun same => differ (by rw [same]))
      have split : (rest++[best,other]).filter accept = rest.filter accept++best :: [other] := by
        rw [filter_append,filter_cons,if_pos (accepted _ _ best_in),filter_cons,
          if_pos (accepted _ _ mem),filter_nil]
      have lower : ∀ early ∈ rest.filter accept, rank early ≤ rank best := fun early inRest =>
        highest_in early ((perm.filter accept).mem_iff.mp (by rw [split]; exact mem_append_left _ inRest))
      cases chosen : select replace none ((rest++[best,other]).filter accept) with
      | none =>
        rw [select_eq_none.mp chosen] at split
        cases (append_eq_nil_iff.mp split.symm).2
      | some final =>
        have silent := (select_highest_iff climbs split (accepted _) lower (by simpa using below) chosen).mp
          (always _ perm final chosen)
        rw [silent other (by simp)] at taken
        cases taken
  · intro silent order perm best chosen
    have some_candidate : order.filter accept ≠ [] := fun empty => by
      rw [empty] at chosen
      cases chosen
    obtain ⟨before,last,after,split,lower,below⟩ := exists_last_highest rank some_candidate
    refine (select_highest_iff climbs split (accepted _) lower below chosen).mpr fun other late => ?_
    have same := perm.filter accept
    exact silent last ((highest_perm same).mp (last_highest split lower below)) other
      (same.mem_iff.mp (by simp [split,late]))

end

end Foundations.Selection
