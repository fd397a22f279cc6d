import SipxExternals.FoundationsSelection
import SipxExternals.NetSnmpAsnTypes

namespace NetSnmp.VacmView
open Foundations.Selection AsnTypes
open List hiding count head tail

def vacmMaxString : Nat := 32
def snmpViewExcluded : Int := 2

-- vacm_viewEntry. viewName has its length octet in front; viewSubtree leaves out the length in viewSubtree[0].
structure ViewEntry where
  viewName : List UInt8
  viewSubtree : List Nat
  viewMask : List UInt8
  viewType : Int

inductive ViewMode where
  | find | ignoreMask | checkSubtree
deriving DecidableEq

inductive VacmResult where
  | success | notInView | subtreeUnknown
deriving DecidableEq

-- VIEW_MASK: a position behind the end of the mask counts as set.
def viewMaskBit (entry : ViewEntry) (maskpos mask : Nat) : Nat :=
  match entry.viewMask[maskpos]? with
  | some octet => octet.toNat &&& mask
  | none => mask

def maskedLoop (ignoreMask : Bool) (entry : ViewEntry) : Nat → Nat → List Nat → List Nat → Bool
  | mask,maskpos,wanted :: subtree,given :: rest =>
    if (ignoreMask ∨ viewMaskBit entry maskpos mask ≠ 0) ∧ given ≠ wanted then false
    else if mask = 1 then maskedLoop ignoreMask entry 0x80 (maskpos+1) subtree rest
    else maskedLoop ignoreMask entry (mask >>> 1) maskpos subtree rest
  | _,_,_,_ => true

def masked (ignoreMask : Bool) (entry : ViewEntry) (oid : List Nat) : Bool :=
  maskedLoop ignoreMask entry 0x80 0 entry.viewSubtree oid

def named (viewName : List UInt8) (entry : ViewEntry) : Bool :=
  entry.viewName.take (viewName.length+1) = UInt8.ofNat viewName.length :: viewName

-- Longer than the previous, or equal and lexicographically greater.
def closer (previous entry : ViewEntry) : Bool :=
  entry.viewSubtree.length > previous.viewSubtree.length ||
    (entry.viewSubtree.length = previous.viewSubtree.length &&
      snmpOidCompare entry.viewSubtree previous.viewSubtree > 0)

def viewLoop (mode : ViewMode) (viewName : List UInt8) (oid : List Nat) :
    Option ViewEntry → Nat → List ViewEntry → Option ViewEntry × Nat
  | vpret,count,[] => (vpret,count)
  | vpret,count,entry :: rest =>
    if named viewName entry && decide (oid.length ≥ entry.viewSubtree.length) &&
        masked (mode = .ignoreMask) entry oid then
      let kept := if mode = .checkSubtree then some entry else keep closer vpret entry
      viewLoop mode viewName oid kept (count+1) rest
    else viewLoop mode viewName oid vpret count rest

def netsnmpViewGet (head : List ViewEntry) (viewName : List UInt8) (oid : List Nat) (mode : ViewMode) :
    Option ViewEntry :=
  if viewName.length ≥ vacmMaxString then none
  else
    let (vpret,count) := viewLoop mode viewName oid none 0 head
    if mode = .checkSubtree ∧ count > 1 then none else vpret

-- vpShorter and vpLonger; `none` is the return of VACM_SUBTREE_UNKNOWN inside the loop.
def checkLoop (viewName : List UInt8) (oid : List Nat) :
    Option ViewEntry → Option ViewEntry → List ViewEntry → Option (Option ViewEntry × Option ViewEntry)
  | vpShorter,vpLonger,[] => some (vpShorter,vpLonger)
  | vpShorter,vpLonger,entry :: rest =>
    if named viewName entry then
      if oid.length ≥ entry.viewSubtree.length then
        if masked false entry oid then checkLoop viewName oid (keep closer vpShorter entry) vpLonger rest
        else checkLoop viewName oid vpShorter vpLonger rest
      else if masked false entry oid then
        match vpLonger with
        | some longer =>
          if longer.viewType ≠ entry.viewType then none else checkLoop viewName oid vpShorter vpLonger rest
        | none => checkLoop viewName oid vpShorter (some entry) rest
      else checkLoop viewName oid vpShorter vpLonger rest
    else checkLoop viewName oid vpShorter vpLonger rest

def inconsistent (vpShorter : Option ViewEntry) (longer : ViewEntry) : Bool :=
  match vpShorter with
  | none => longer.viewType ≠ snmpViewExcluded
  | some shorter => longer.viewType ≠ shorter.viewType

def netsnmpViewSubtreeCheck (head : List ViewEntry) (viewName : List UInt8) (oid : List Nat) : VacmResult :=
  if viewName.length ≥ vacmMaxString then .notInView
  else match checkLoop viewName oid none none head with
    | none => .subtreeUnknown
    | some (vpShorter,vpLonger) =>
      if vpLonger.any (inconsistent vpShorter) then .subtreeUnknown
      else if vpShorter.any (·.viewType ≠ snmpViewExcluded) then .success
      else .notInView

def covers (viewName : List UInt8) (oid : List Nat) (entry : ViewEntry) : Bool :=
  named viewName entry && decide (oid.length ≥ entry.viewSubtree.length) && masked false entry oid

def beyond (viewName : List UInt8) (oid : List Nat) (entry : ViewEntry) : Bool :=
  named viewName entry && decide (oid.length < entry.viewSubtree.length) && masked false entry oid

theorem maskedLoop_extension (ignoreMask : Bool) (entry : ViewEntry) (mask maskpos : Nat) (subtree oid ext : List Nat)
    (found : maskedLoop ignoreMask entry mask maskpos subtree (oid++ext) = true) :
    maskedLoop ignoreMask entry mask maskpos subtree oid = true := by
  induction subtree generalizing mask maskpos oid with
  | nil => simp [maskedLoop]
  | cons wanted subtree ih =>
    cases oid with
    | nil => simp [maskedLoop]
    | cons given rest =>
      rw [cons_append,maskedLoop] at found
      rw [maskedLoop]
      split at found
      · cases found
      rename_i equal
      rw [if_neg equal]
      split at found
      · rename_i last
        rw [if_pos last]
        exact ih _ _ _ found
      · rename_i last
        rw [if_neg last]
        exact ih _ _ _ found

theorem maskedLoop_short (ignoreMask : Bool) (entry : ViewEntry) (mask maskpos : Nat) (subtree oid ext : List Nat)
    (short : subtree.length ≤ oid.length) :
    maskedLoop ignoreMask entry mask maskpos subtree (oid++ext) =
      maskedLoop ignoreMask entry mask maskpos subtree oid := by
  induction subtree generalizing mask maskpos oid with
  | nil => simp [maskedLoop]
  | cons wanted subtree ih =>
    cases oid with
    | nil => simp at short
    | cons given rest =>
      have shorter : subtree.length ≤ rest.length := Nat.le_of_succ_le_succ short
      rw [cons_append,maskedLoop,maskedLoop,ih _ _ _ shorter,ih _ _ _ shorter]

theorem covers_extension (covered : covers viewName oid entry = true) : covers viewName (oid++ext) entry = true := by
  simp only [covers,Bool.and_eq_true,decide_eq_true_eq] at covered ⊢
  obtain ⟨⟨name,short⟩,match_⟩ := covered
  refine ⟨⟨name,by rw [length_append]; omega⟩,?_⟩
  rw [masked,maskedLoop_short _ _ _ _ _ _ _ short]
  exact match_

theorem covers_extension_cases (covered : covers viewName (oid++ext) entry = true) :
    covers viewName oid entry = true ∨ beyond viewName oid entry = true := by
  simp only [covers,beyond,Bool.and_eq_true,decide_eq_true_eq] at covered ⊢
  obtain ⟨⟨name,-⟩,found⟩ := covered
  have here := maskedLoop_extension _ _ _ _ _ _ _ found
  by_cases short : oid.length ≥ entry.viewSubtree.length
  · exact .inl ⟨⟨name,short⟩,here⟩
  · exact .inr ⟨⟨name,Nat.not_le.mp short⟩,here⟩

theorem viewLoop_find (viewName : List UInt8) (oid : List Nat) (vpret : Option ViewEntry) (count : Nat)
    (entries : List ViewEntry) :
    (viewLoop .find viewName oid vpret count entries).1 =
      select closer vpret (entries.filter (covers viewName oid)) := by
  induction entries generalizing vpret count with
  | nil => rfl
  | cons entry rest ih =>
    have same : (named viewName entry && decide (oid.length ≥ entry.viewSubtree.length) &&
        masked (decide (ViewMode.find = ViewMode.ignoreMask)) entry oid) = covers viewName oid entry := rfl
    rw [viewLoop,same,filter_cons]
    split
    · exact ih _ _
    · exact ih _ _

theorem netsnmpViewGet_find (short : viewName.length < vacmMaxString) :
    netsnmpViewGet head viewName oid .find = select closer none (head.filter (covers viewName oid)) := by
  rw [netsnmpViewGet,if_neg (Nat.not_le.mpr short)]
  dsimp only
  rw [if_neg (by simp),viewLoop_find]

theorem closer_longer (previous entry : ViewEntry)
    (longer : previous.viewSubtree.length < entry.viewSubtree.length) : closer previous entry = true := by
  simp [closer,longer]

theorem closer_length (previous entry : ViewEntry) (is : closer previous entry = true) :
    previous.viewSubtree.length ≤ entry.viewSubtree.length := by
  simp only [closer,Bool.or_eq_true,Bool.and_eq_true,decide_eq_true_eq] at is
  omega

-- What is left after the scan: the closest family that covers the OID, and a family
-- beyond it whose type all families beyond it share.
structure Scanned (viewName : List UInt8) (oid : List Nat) (entries : List ViewEntry)
    (vpLonger longer : Option ViewEntry) : Prop where
  kept : ∀ entry, vpLonger = some entry → longer = some entry
  common : ∀ entry ∈ entries, beyond viewName oid entry = true →
    ∃ found, longer = some found ∧ found.viewType = entry.viewType

theorem scanned_skip (rest : Scanned viewName oid entries vpLonger longer) (other : beyond viewName oid entry = false) :
    Scanned viewName oid (entry :: entries) vpLonger longer := by
  refine ⟨rest.kept,fun each mem is => ?_⟩
  cases mem with
  | head => rw [other] at is; cases is
  | tail _ mem => exact rest.common each mem is

theorem checkLoop_scanned (scanned : checkLoop viewName oid vpShorter vpLonger entries = some (shorter,longer)) :
    shorter = select closer vpShorter (entries.filter (covers viewName oid)) ∧
      Scanned viewName oid entries vpLonger longer := by
  induction entries generalizing vpShorter vpLonger with
  | nil =>
    cases scanned
    exact ⟨rfl,fun _ is => is,by simp⟩
  | cons entry rest ih =>
    rw [checkLoop.eq_def] at scanned
    dsimp only at scanned
    rw [filter_cons]
    by_cases covered : covers viewName oid entry = true
    · obtain ⟨⟨name,short⟩,found⟩ := by simpa only [covers,Bool.and_eq_true,decide_eq_true_eq] using covered
      rw [if_pos name,if_pos short,if_pos found] at scanned
      obtain ⟨same,common⟩ := ih scanned
      rw [if_pos covered]
      exact ⟨same,scanned_skip common (by simp [beyond,short])⟩
    rw [if_neg covered]
    by_cases further : beyond viewName oid entry = true
    · obtain ⟨⟨name,long⟩,found⟩ := by simpa only [beyond,Bool.and_eq_true,decide_eq_true_eq] using further
      rw [if_pos name,if_neg (Nat.not_le.mpr long),if_pos found] at scanned
      cases vpLonger with
      | none =>
        obtain ⟨same,common⟩ := ih scanned
        refine ⟨same,by simp,fun each mem is => ?_⟩
        cases mem with
        | head => exact ⟨entry,common.kept entry rfl,rfl⟩
        | tail _ mem => exact common.common each mem is
      | some first =>
        dsimp only at scanned
        split at scanned
        · cases scanned
        rename_i equal
        obtain ⟨same,common⟩ := ih scanned
        refine ⟨same,common.kept,fun each mem is => ?_⟩
        cases mem with
        | head => exact ⟨first,common.kept first rfl,not_not.mp equal⟩
        | tail _ mem => exact common.common each mem is
    have passed : checkLoop viewName oid vpShorter vpLonger rest = some (shorter,longer) := by
      simp only [covers,beyond] at covered further
      grind
    obtain ⟨same,common⟩ := ih passed
    exact ⟨same,scanned_skip common (Bool.eq_false_iff.mpr further)⟩

-- The family that decides about an extension is either one beyond the OID, or the one
-- that decides about the OID itself.
theorem extension_choice {head : List ViewEntry} (chosen : select closer none (head.filter (covers viewName (oid++ext))) = some best) :
    (best ∈ head ∧ beyond viewName oid best = true) ∨
      select closer none (head.filter (covers viewName oid)) = some best := by
  have mem := (select_mem chosen).resolve_right (by simp)
  obtain ⟨present,covered⟩ := mem_filter.mp mem
  rcases covers_extension_cases covered with here | far
  · right
    have longest := (select_highest closer_longer closer_length chosen).1
    have reach : best.viewSubtree.length ≤ oid.length := by
      simp only [covers,Bool.and_eq_true,decide_eq_true_eq] at here
      exact here.1.2
    have same : head.filter (covers viewName (oid++ext)) = head.filter (covers viewName oid) := by
      refine filter_congr fun entry inList => ?_
      rw [Bool.eq_iff_iff]
      refine ⟨fun covered => ?_,fun covered => covers_extension covered⟩
      have bounded := longest entry (mem_filter.mpr ⟨inList,covered⟩)
      rcases covers_extension_cases covered with near | far
      · exact near
      · simp only [beyond,Bool.and_eq_true,decide_eq_true_eq] at far
        omega
    rw [← same]
    exact chosen
  · exact .inl ⟨present,far⟩

theorem settled_cases (short : viewName.length < vacmMaxString)
    (checked : netsnmpViewSubtreeCheck head viewName oid = result) (settled : result ≠ .subtreeUnknown) :
    ∃ shorter longer, select closer none (head.filter (covers viewName oid)) = shorter ∧
      Scanned viewName oid head none longer ∧ (∀ entry, longer = some entry → inconsistent shorter entry = false) ∧
      (if shorter.any (·.viewType ≠ snmpViewExcluded) then .success else .notInView) = result := by
  unfold netsnmpViewSubtreeCheck at checked
  rw [if_neg (Nat.not_le.mpr short)] at checked
  cases looped : checkLoop viewName oid none none head with
  | none => exact absurd (by rw [← checked,looped]) settled
  | some found =>
    obtain ⟨shorter,longer⟩ := found
    obtain ⟨same,scanned⟩ := checkLoop_scanned looped
    rw [looped] at checked
    dsimp only at checked
    split at checked
    · exact absurd checked.symm settled
    rename_i consistent
    exact ⟨shorter,longer,same.symm,scanned,by rintro entry rfl; simpa using consistent,checked⟩

theorem subtree_check_sound (head : List ViewEntry) (viewName : List UInt8) (oid : List Nat) :
    (netsnmpViewSubtreeCheck head viewName oid = .success → ∀ ext, ∃ entry,
      netsnmpViewGet head viewName (oid++ext) .find = some entry ∧ entry.viewType ≠ snmpViewExcluded) ∧
    (netsnmpViewSubtreeCheck head viewName oid = .notInView → ∀ ext entry,
      netsnmpViewGet head viewName (oid++ext) .find = some entry → entry.viewType = snmpViewExcluded) := by
  constructor
  · intro checked ext
    have short : viewName.length < vacmMaxString := by
      by_contra long
      simp [netsnmpViewSubtreeCheck,Nat.not_lt.mp long] at checked
    obtain ⟨shorter,longer,chosen,scanned,consistent,result⟩ := settled_cases short checked nofun
    rw [netsnmpViewGet_find short]
    obtain ⟨shorter,rfl,included⟩ : ∃ entry, shorter = some entry ∧ entry.viewType ≠ snmpViewExcluded := by
      cases shorter <;> simp at result ⊢
      exact result
    obtain ⟨inList,covered⟩ := mem_filter.mp ((select_mem chosen).resolve_right (by simp))
    have some_covers : head.filter (covers viewName (oid++ext)) ≠ [] :=
      ne_nil_of_mem (mem_filter.mpr ⟨inList,covers_extension covered⟩)
    cases found : select closer none (head.filter (covers viewName (oid++ext))) with
    | none => exact absurd (select_eq_none.mp found) some_covers
    | some best =>
      refine ⟨best,rfl,?_⟩
      rcases extension_choice found with ⟨present,far⟩ | near
      · obtain ⟨other,is,type⟩ := scanned.common best present far
        have same := consistent other is
        simp only [inconsistent,ne_eq,decide_not,Bool.not_eq_false',decide_eq_true_eq] at same
        rw [← type,same]
        exact included
      · rw [chosen] at near
        cases near
        exact included
  · intro checked ext entry found
    by_cases short : viewName.length < vacmMaxString
    · obtain ⟨shorter,longer,chosen,scanned,consistent,result⟩ := settled_cases short checked nofun
      rw [netsnmpViewGet_find short] at found
      have excluded : ∀ entry, shorter = some entry → entry.viewType = snmpViewExcluded := by
        rintro entry rfl
        simpa using result
      rcases extension_choice found with ⟨present,far⟩ | near
      · obtain ⟨other,is,type⟩ := scanned.common entry present far
        have same := consistent other is
        rw [← type]
        cases shorter <;> simp_all [inconsistent]
      · exact excluded entry (chosen ▸ near)
    · rw [netsnmpViewGet,if_pos (Nat.not_lt.mp short)] at found
      cases found

end NetSnmp.VacmView
