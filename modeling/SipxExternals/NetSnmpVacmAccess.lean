import SipxExternals.FoundationsCStrings
import SipxExternals.NetSnmpVacmView

namespace NetSnmp.VacmAccess
open Foundations.CStrings Foundations.Selection VacmView

def vacmStringLen : Nat := 34
def vacmMaxViews : Nat := 8
def secModelAny : Int := 0
def contextMatchExact : Int := 1
def contextMatchPrefix : Int := 2

-- vacm_accessEntry. groupName and contextPrefix are without the length in front of them.
structure AccessEntry where
  groupName : CString
  contextPrefix : CString
  securityModel : Int
  securityLevel : Int
  contextMatch : Int
  views : Vector (CharArray vacmStringLen) vacmMaxViews
  storageType : Int
  status : Int
  groupFits : groupName.strlen < vacmMaxString
  contextFits : contextPrefix.strlen < vacmMaxString
deriving DecidableEq

-- A new entry of calloc with its index set.
def blankEntry (groupName contextPrefix : CString) (securityModel securityLevel : Int)
    (groupFits : groupName.strlen < vacmMaxString) (contextFits : contextPrefix.strlen < vacmMaxString) : AccessEntry where
  groupName := groupName
  contextPrefix := contextPrefix
  securityModel := securityModel
  securityLevel := securityLevel
  contextMatch := 0
  views := Vector.replicate vacmMaxViews (CharArray.blank vacmStringLen (by decide))
  storageType := 0
  status := 0
  groupFits := groupFits
  contextFits := contextFits

abbrev AccessPointer := AccessEntry × Nat

def outranks (current candidate : AccessEntry) : Bool :=
  (current.securityModel = secModelAny && candidate.securityModel ≠ secModelAny) ||
  (current.contextMatch = contextMatchPrefix && candidate.contextMatch = contextMatchExact) ||
  (current.contextMatch = contextMatchPrefix &&
    decide (current.contextPrefix.strlen < candidate.contextPrefix.strlen)) ||
  decide (current.securityLevel < candidate.securityLevel)

def vacmChooseBest (current : Option AccessPointer) (candidate : AccessPointer) : Option AccessPointer :=
  keep (fun current candidate => outranks current.1 candidate.1) current candidate

def accessible (groupName contextPrefix : CString) (securityModel securityLevel : Int) (vp : AccessEntry) : Bool :=
  (securityModel = vp.securityModel || vp.securityModel = secModelAny) &&
  decide (securityLevel ≥ vp.securityLevel) &&
  memcmp vp.groupName.counted groupName.counted (groupName.strlen+1) = 0 &&
  ((vp.contextMatch = contextMatchExact && contextPrefix.strlen = vp.contextPrefix.strlen &&
      memcmp vp.contextPrefix.counted contextPrefix.counted (contextPrefix.strlen+1) = 0) ||
    (vp.contextMatch = contextMatchPrefix && decide (contextPrefix.strlen ≥ vp.contextPrefix.strlen) &&
      memcmp (vp.contextPrefix.counted.drop 1) (contextPrefix.counted.drop 1) vp.contextPrefix.strlen = 0))

def accessLoop (test : AccessEntry → Bool) : Option AccessPointer → Nat → List AccessEntry → Option AccessPointer
  | best,_,[] => best
  | best,place,vp :: next =>
    if test vp then accessLoop test (vacmChooseBest best (vp,place)) (place+1) next
    else accessLoop test best (place+1) next

def vacmGetAccessEntry (accessList : List AccessEntry) (groupName contextPrefix : CString)
    (securityModel securityLevel : Int) : Option AccessPointer :=
  if groupName.strlen ≥ vacmMaxString then none
  else if contextPrefix.strlen ≥ vacmMaxString then none
  else accessLoop (accessible groupName contextPrefix securityModel securityLevel) none 0 accessList

-- The entries the search is about; a context of 32 characters or more has none.
def Matches (groupName contextPrefix : CString) (securityModel securityLevel : Int) (vp : AccessEntry) : Prop :=
  (vp.securityModel = securityModel ∨ vp.securityModel = secModelAny) ∧ vp.securityLevel ≤ securityLevel ∧
  vp.groupName = groupName ∧ contextPrefix.strlen < vacmMaxString ∧
  ((vp.contextMatch = contextMatchExact ∧ vp.contextPrefix = contextPrefix) ∨
    (vp.contextMatch = contextMatchPrefix ∧ vp.contextPrefix.text <+: contextPrefix.text))

instance (groupName contextPrefix : CString) (securityModel securityLevel : Int) (vp : AccessEntry) :
    Decidable (Matches groupName contextPrefix securityModel securityLevel vp) :=
  inferInstanceAs (Decidable (_ ∧ _))

def matching (groupName contextPrefix : CString) (securityModel securityLevel : Int) (accessList : List AccessEntry) :
    List AccessEntry :=
  accessList.filter fun vp => Matches groupName contextPrefix securityModel securityLevel vp

theorem accessible_iff (group_short : groupName.strlen < vacmMaxString) (context_short : contextPrefix.strlen < vacmMaxString) :
    accessible groupName contextPrefix securityModel securityLevel vp = true ↔
      Matches groupName contextPrefix securityModel securityLevel vp := by
  simp only [accessible,Matches,Bool.and_eq_true,Bool.or_eq_true,decide_eq_true_eq]
  have small : vacmMaxString ≤ 256 := by decide
  rw [memcmp_counted (vp.groupFits.trans_le small) (group_short.trans_le small),
    memcmp_counted (vp.contextFits.trans_le small) (context_short.trans_le small),eq_comm]
  have whole : contextPrefix.strlen = vp.contextPrefix.strlen ∧ vp.contextPrefix = contextPrefix ↔
      vp.contextPrefix = contextPrefix := ⟨And.right,fun same => ⟨by rw [same],same⟩⟩
  have part : contextPrefix.strlen ≥ vp.contextPrefix.strlen ∧
      memcmp (vp.contextPrefix.counted.drop 1) (contextPrefix.counted.drop 1) vp.contextPrefix.strlen = 0 ↔
      vp.contextPrefix.text <+: contextPrefix.text :=
    ⟨fun both => (memcmp_begins both.1).mp both.2,fun is => ⟨is.length_le,(memcmp_begins is.length_le).mpr is⟩⟩
  rw [and_assoc (a := vp.contextMatch = contextMatchExact),whole,
    and_assoc (a := vp.contextMatch = contextMatchPrefix),part]
  simp [context_short,and_assoc,ge_iff_le]

theorem accessLoop_entry (best : Option AccessPointer) (place : Nat) (accessList : List AccessEntry) :
    (accessLoop test best place accessList).map Prod.fst =
      select outranks (best.map Prod.fst) (accessList.filter test) := by
  induction accessList generalizing best place with
  | nil => rfl
  | cons vp next ih =>
    rw [accessLoop,List.filter_cons]
    split
    · rw [ih,select_cons]
      congr 1
      exact select_map [(vp,place)]
    · exact ih best (place+1)

theorem accessLoop_place (reached : accessLoop test best start accessList = some (vp,place)) :
    best = some (vp,place) ∨ ∃ left right, accessList = left++vp :: right ∧ place = start+left.length ∧ test vp = true := by
  induction accessList generalizing best start with
  | nil => exact .inl reached
  | cons first next ih =>
    rw [accessLoop] at reached
    split at reached
    · rename_i accepted
      rcases ih reached with kept | ⟨left,right,rfl,rfl,is⟩
      · rcases keep_cases kept with same | before
        · cases same
          exact .inr ⟨[],next,rfl,rfl,accepted⟩
        · exact .inl before
      · exact .inr ⟨first :: left,right,rfl,by rw [List.length_cons]; omega,is⟩
    · rcases ih reached with kept | ⟨left,right,rfl,rfl,is⟩
      · exact .inl kept
      · exact .inr ⟨first :: left,right,rfl,by rw [List.length_cons]; omega,is⟩

theorem vacmGetAccessEntry_place
    (looked : vacmGetAccessEntry accessList groupName contextPrefix securityModel securityLevel = some (vp,place)) :
    ∃ left right, accessList = left++vp :: right ∧ left.length = place ∧
      Matches groupName contextPrefix securityModel securityLevel vp := by
  rw [vacmGetAccessEntry] at looked
  split at looked
  · cases looked
  rename_i group_short
  split at looked
  · cases looked
  rename_i context_short
  rcases accessLoop_place looked with none_kept | ⟨left,right,split,here,is⟩
  · cases none_kept
  · refine ⟨left,right,split,by omega,?_⟩
    exact (accessible_iff (Nat.not_le.mp group_short) (Nat.not_le.mp context_short)).mp is

theorem vacmGetAccessEntry_entry :
    (vacmGetAccessEntry accessList groupName contextPrefix securityModel securityLevel).map Prod.fst =
      select outranks none (matching groupName contextPrefix securityModel securityLevel accessList) := by
  rw [vacmGetAccessEntry]
  split
  · rename_i long
    have none_match : matching groupName contextPrefix securityModel securityLevel accessList = [] := by
      refine List.filter_eq_nil_iff.mpr fun vp _ is => ?_
      obtain ⟨-,-,same,-⟩ := of_decide_eq_true is
      exact absurd (same ▸ vp.groupFits) (Nat.not_lt.mpr long)
    rw [none_match]
    rfl
  rename_i group_short
  split
  · rename_i long
    have none_match : matching groupName contextPrefix securityModel securityLevel accessList = [] := by
      refine List.filter_eq_nil_iff.mpr fun vp _ is => ?_
      obtain ⟨-,-,-,short,-⟩ := of_decide_eq_true is
      exact absurd short (Nat.not_lt.mpr long)
    rw [none_match]
    rfl
  · rename_i context_short
    rw [accessLoop_entry,matching]
    refine congrArg (select outranks none) (List.filter_congr fun vp _ => ?_)
    rw [Bool.eq_iff_iff,decide_eq_true_eq]
    exact accessible_iff (Nat.not_le.mp group_short) (Nat.not_le.mp context_short)

def exactModel (entry : AccessEntry) : Bool := entry.securityModel ≠ secModelAny

def exactContext (entry : AccessEntry) : Bool := entry.contextMatch = contextMatchExact

-- The successive discards a) to d) of RFC 3415 that the source quotes.
def preferred (entries : List AccessEntry) : List AccessEntry :=
  highest (·.securityLevel) (highest (·.contextPrefix.strlen) (highest exactContext (highest exactModel entries)))

def rank (entry : AccessEntry) : Bool ×ₗ Bool ×ₗ Nat ×ₗ Int :=
  toLex (exactModel entry,toLex (exactContext entry,toLex (entry.contextPrefix.strlen,entry.securityLevel)))

theorem preferred_eq : preferred entries = highest rank entries := by
  rw [preferred,highest_highest,highest_highest,highest_highest]
  rfl

theorem rank_eq_iff : rank left = rank right ↔ exactModel left = exactModel right ∧
    exactContext left = exactContext right ∧ left.contextPrefix.strlen = right.contextPrefix.strlen ∧
    left.securityLevel = right.securityLevel := by
  simp [rank,EmbeddingLike.apply_eq_iff_eq]

theorem rank_lt_iff : rank left < rank right ↔
    exactModel left < exactModel right ∨ exactModel left = exactModel right ∧
    (exactContext left < exactContext right ∨ exactContext left = exactContext right ∧
    (left.contextPrefix.strlen < right.contextPrefix.strlen ∨ left.contextPrefix.strlen = right.contextPrefix.strlen ∧
      left.securityLevel < right.securityLevel)) := by
  simp [rank,Prod.Lex.toLex_lt_toLex]

section
variable (is : Matches groupName contextPrefix securityModel securityLevel vp)
include is

theorem matches_mode : (vp.contextMatch = contextMatchExact ∧ vp.contextPrefix.strlen = contextPrefix.strlen) ∨
      vp.contextMatch = contextMatchPrefix := by
  rcases is.2.2.2.2 with ⟨mode,same⟩ | ⟨mode,-⟩
  · exact .inl ⟨mode,by rw [same]⟩
  · exact .inr mode

theorem exactContext_false : exactContext vp = false ↔ vp.contextMatch = contextMatchPrefix := by
  rcases matches_mode is with ⟨mode,-⟩ | mode
  · simp [exactContext,mode,contextMatchExact,contextMatchPrefix]
  · simp [exactContext,mode,contextMatchExact,contextMatchPrefix]

end

theorem outranks_iff (is : Matches groupName contextPrefix securityModel securityLevel current) :
    outranks current candidate = true ↔ (exactModel current = false ∧ exactModel candidate = true) ∨
      (exactContext current = false ∧ (exactContext candidate = true ∨
        current.contextPrefix.strlen < candidate.contextPrefix.strlen)) ∨
      current.securityLevel < candidate.securityLevel := by
  rw [exactContext_false is]
  simp only [outranks,exactModel,exactContext,Bool.or_eq_true,Bool.and_eq_true,decide_eq_true_eq,
    decide_eq_false_iff_not,not_not]
  tauto

theorem outranks_climbs (groupName contextPrefix : CString) (securityModel securityLevel : Int) :
    Climbs (fun vp => decide (Matches groupName contextPrefix securityModel securityLevel vp) = true) outranks rank where
  up := by
    intro current candidate is_current is_candidate lower
    have current_matches := of_decide_eq_true is_current
    have candidate_matches := of_decide_eq_true is_candidate
    rw [outranks_iff current_matches]
    rcases rank_lt_iff.mp lower with model | ⟨-,context | ⟨same,longer | ⟨-,level⟩⟩⟩
    · exact .inl (Bool.lt_iff.mp model)
    · obtain ⟨inexact,exact_⟩ := Bool.lt_iff.mp context
      exact .inr (.inl ⟨inexact,.inl exact_⟩)
    · refine .inr (.inl ⟨?_,.inr longer⟩)
      cases exact_ : exactContext current with
      | false => rfl
      | true =>
        have current_whole := (matches_mode current_matches).resolve_right
          (fun mode => by rw [(exactContext_false current_matches).mpr mode] at exact_; cases exact_)
        have candidate_whole := (matches_mode candidate_matches).resolve_right
          (fun mode => by rw [same,(exactContext_false candidate_matches).mpr mode] at exact_; cases exact_)
        omega
    · exact .inr (.inr level)
  level := by
    intro current candidate is_current is_candidate equal
    obtain ⟨model,context,lengths,level⟩ := rank_eq_iff.mp equal
    rw [← Bool.not_eq_true,outranks_iff (of_decide_eq_true is_current),model,context,lengths,level]
    simp
  respects := by
    intro current twin candidate is_current is_twin is_candidate equal
    obtain ⟨model,context,lengths,level⟩ := rank_eq_iff.mp equal
    rw [Bool.eq_iff_iff,outranks_iff (of_decide_eq_true is_current),outranks_iff (of_decide_eq_true is_twin),
      model,context,lengths,level]

def Overrides (best other : AccessEntry) : Prop :=
  (best.contextMatch = contextMatchPrefix ∧ (other.contextMatch = contextMatchExact ∨
    best.contextPrefix.strlen < other.contextPrefix.strlen)) ∨
  best.securityLevel < other.securityLevel

theorem outranks_preferred (is : Matches groupName contextPrefix securityModel securityLevel best)
    (top : rank other ≤ rank best) : outranks best other = false ↔ ¬ Overrides best other := by
  rw [← Bool.not_eq_true,outranks_iff is,exactContext_false is]
  have same_model : ¬ (exactModel best = false ∧ exactModel other = true) := fun both =>
    absurd (rank_lt_iff.mpr (.inl (Bool.lt_iff.mpr both))) (not_lt.mpr top)
  simp [Overrides,same_model,exactContext]

section
variable {entries : List AccessEntry} (valid : ∀ vp ∈ entries, decide (Matches groupName contextPrefix securityModel securityLevel vp) = true)
include valid

theorem outranks_top (best_in : best ∈ highest rank entries) (other_in : other ∈ entries) :
    outranks best other = false ↔ ¬ Overrides best other := by
  obtain ⟨mem,top⟩ := mem_highest.mp best_in
  exact outranks_preferred (of_decide_eq_true (valid best mem)) (top other other_in)

theorem highest_this_order : (∀ best, select outranks none entries = some best → best ∈ highest rank entries) ↔
      ∀ before last after, entries = before++last :: after → last ∈ highest rank entries →
        (∀ other ∈ after, other ∉ highest rank entries) → ∀ other ∈ after, ¬ Overrides last other := by
  have climbs := outranks_climbs groupName contextPrefix securityModel securityLevel
  constructor
  · intro chosen before last after split last_in worse other late
    obtain ⟨-,top⟩ := mem_highest.mp last_in
    have below : ∀ other ∈ after, rank other < rank last := fun other late => by
      refine lt_of_not_ge fun higher => worse other late (mem_highest.mpr ⟨by simp [split,late],fun third inList => ?_⟩)
      exact (top third inList).trans higher
    have some_entry : entries ≠ [] := by simp [split]
    cases found : select outranks none entries with
    | none => exact absurd (select_eq_none.mp found) some_entry
    | some best =>
      have kept := (select_highest_iff climbs split valid (fun other early => top other (by simp [split,early])) below
        found).mp (chosen best found) other late
      exact (outranks_top valid last_in (by simp [split,late])).mp kept
  · intro settled best found
    have some_entry : entries ≠ [] := fun empty => by
      rw [empty] at found
      cases found
    obtain ⟨before,last,after,split,lower,below⟩ := exists_last_highest rank some_entry
    have last_in := last_highest split lower below
    refine (select_highest_iff climbs split valid lower below found).mpr fun other late => ?_
    refine (outranks_top valid last_in (by simp [split,late])).mpr (settled before last after split last_in ?_ other late)
    intro third third_late top
    exact absurd ((mem_highest.mp top).2 last (by simp [split])) (not_le.mpr (below third third_late))

end

section
variable (groupName contextPrefix : CString) (securityModel securityLevel : Int)

theorem vacmGetAccessEntry_none : vacmGetAccessEntry accessList groupName contextPrefix securityModel securityLevel = none ↔
      matching groupName contextPrefix securityModel securityLevel accessList = [] := by
  rw [← Option.map_eq_none_iff,vacmGetAccessEntry_entry,select_eq_none]

def Chosen (accessList : List AccessEntry) : Prop :=
  ∀ entry place, vacmGetAccessEntry accessList groupName contextPrefix securityModel securityLevel = some (entry,place) →
    entry ∈ preferred (matching groupName contextPrefix securityModel securityLevel accessList)

theorem chosen_select : Chosen groupName contextPrefix securityModel securityLevel accessList ↔
      ∀ best, select outranks none (matching groupName contextPrefix securityModel securityLevel accessList) = some best →
        best ∈ highest rank (matching groupName contextPrefix securityModel securityLevel accessList) := by
  rw [← vacmGetAccessEntry_entry,← preferred_eq,Chosen]
  constructor
  · intro chosen best found
    obtain ⟨⟨entry,place⟩,returned,rfl⟩ := Option.map_eq_some_iff.mp found
    exact chosen entry place returned
  · intro chosen entry place returned
    exact chosen entry (by rw [returned]; rfl)

theorem preferred_entry_iff (accessList : List AccessEntry) :
    (vacmGetAccessEntry accessList groupName contextPrefix securityModel securityLevel = none ↔
      matching groupName contextPrefix securityModel securityLevel accessList = []) ∧
    (Chosen groupName contextPrefix securityModel securityLevel accessList ↔ ∀ before last after,
        matching groupName contextPrefix securityModel securityLevel accessList = before++last :: after →
        last ∈ preferred (matching groupName contextPrefix securityModel securityLevel accessList) →
        (∀ other ∈ after, other ∉ preferred (matching groupName contextPrefix securityModel securityLevel accessList)) →
        ∀ other ∈ after, ¬ Overrides last other) ∧
    ((∀ order, List.Perm order accessList → Chosen groupName contextPrefix securityModel securityLevel order) ↔
      ∀ best ∈ preferred (matching groupName contextPrefix securityModel securityLevel accessList),
        ∀ other ∈ matching groupName contextPrefix securityModel securityLevel accessList, ¬ Overrides best other) := by
  have valid : ∀ vp ∈ matching groupName contextPrefix securityModel securityLevel accessList,
      decide (Matches groupName contextPrefix securityModel securityLevel vp) = true := fun _ mem => (List.mem_filter.mp mem).2
  simp only [chosen_select,preferred_eq]
  refine ⟨vacmGetAccessEntry_none _ _ _ _,highest_this_order valid,
    (select_every_order (outranks_climbs groupName contextPrefix securityModel securityLevel)).trans ?_⟩
  constructor
  · intro silent best best_in other other_in
    exact (outranks_top valid best_in other_in).mp (silent best best_in other other_in)
  · intro settled best best_in other other_in
    exact (outranks_top valid best_in other_in).mpr (settled best best_in other other_in)

end

def sampleGroup : CString := ⟨[0x67],by decide⟩
def sampleContext : CString := ⟨[0x61],by decide⟩

theorem sampleGroup_fits : sampleGroup.strlen < vacmMaxString := by decide

theorem empty_fits : CString.empty.strlen < vacmMaxString := by decide

def everyContext : AccessEntry :=
  { blankEntry sampleGroup CString.empty 2 1 sampleGroup_fits empty_fits with contextMatch := contextMatchPrefix }
def everyModel : AccessEntry :=
  { blankEntry sampleGroup sampleContext 0 1 sampleGroup_fits (by decide) with contextMatch := contextMatchExact }

theorem discarded_entry_chosen :
    preferred (matching sampleGroup sampleContext 2 1 [everyContext,everyModel]) = [everyContext] ∧
    vacmGetAccessEntry [everyContext,everyModel] sampleGroup sampleContext 2 1 = some (everyModel,1) ∧
    vacmGetAccessEntry [everyModel,everyContext] sampleGroup sampleContext 2 1 = some (everyContext,1) := by
  decide +kernel

end NetSnmp.VacmAccess
