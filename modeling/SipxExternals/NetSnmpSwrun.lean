import SipxExternals.FoundationsCStrings
import SipxExternals.NetSnmpAsnTypes
import SipxExternals.NetSnmpBinaryArraySet

namespace NetSnmp.Swrun
open Foundations.CStrings Foundations.Segments NetSnmp.AsnTypes NetSnmp.BinaryArray List

theorem compare_le : snmpOidCompare left right ≤ 0 ↔ left ≤ right := by
  rw [← not_lt,← not_lt]
  exact not_congr compare_more

def netsnmpCompareNetsnmpIndex (oids : α → List Nat) (lhs rhs : α) : Int := snmpOidCompare (oids lhs) (oids rhs)

theorem compareIndex_preorder (oids : α → List Nat) : TotalPreorder (netsnmpCompareNetsnmpIndex oids) where
  swap a b := (compare_less (oids a) (oids b)).trans compare_more.symm
  trans _ _ _ first second := compare_le.mpr ((compare_le.mp first).trans (compare_le.mp second))

structure SwrunEntry where
  hrSWRunIndex : Nat
  hrSWRunName : CharArray 65
  hrSWRunPath : CharArray 129
  hrSWRunParameters : CharArray 129

def SwrunEntry.oidIndex (entry : SwrunEntry) : List Nat := [entry.hrSWRunIndex]

def compareEntry : SwrunEntry → SwrunEntry → Int := netsnmpCompareNetsnmpIndex SwrunEntry.oidIndex

-- The regular expression library: exec gives a positive value exactly when the subject matches.
structure Pcre where
  Pattern : Type
  exec : Pattern → List UInt8 → Int
  Matches : Pattern → List UInt8 → Bool
  positive : ∀ regexp subject,0 < exec regexp subject ↔ Matches regexp subject = true

-- The process table is what the container holds when its cache has been reloaded.
structure ProcessTable where
  container : Container SwrunEntry
  sound : Sound compareEntry container

-- sprintf of "%s %s"; 32 is the blank.
def fullCommand (entry : SwrunEntry) : List UInt8 :=
  entry.hrSWRunPath.text.text++32 :: entry.hrSWRunParameters.text.text

def countLoop (counts : SwrunEntry → Bool) (c : Container SwrunEntry) : Nat → Iterator → Nat → Nat
  | 0,_,i => i
  | fuel+1,it,i =>
    match iteratorNext c it with
    | (none,_) => i
    | (some entry,it) => countLoop counts c fuel it (if counts entry then i+1 else i)

def countProcesses (counts : SwrunEntry → Bool) (table : ProcessTable) : Nat :=
  let got := iteratorGet compareEntry table.container
  countLoop counts got.2 got.2.data.length got.1 0

def swrunCountProcessesByRegex (pcre : Pcre) (swrunContainer : Option ProcessTable) (name : Option CString)
    (regexp : Option pcre.Pattern) : Nat :=
  match swrunContainer,name,regexp with
  | some table,some _,some regexp => countProcesses (fun entry => pcre.exec regexp (fullCommand entry) > 0) table
  | _,_,_ => 0

def swrunCountProcessesByName (swrunContainer : Option ProcessTable) (name : Option CString) : Nat :=
  match swrunContainer,name with
  | some table,some name => countProcesses (fun entry => strcmp entry.hrSWRunName.text.text name.text = 0) table
  | _,_ => 0

section
variable {c : Container SwrunEntry} (counts : SwrunEntry → Bool)

theorem countLoop_counts : ∀ fuel (it : Iterator) i,c.sync = it.sync → 0 ≤ it.pos → c.data.length ≤ it.pos.toNat+fuel →
    countLoop counts c fuel it i = i+(c.data.drop (it.pos.toNat+1)).countP counts := by
  intro fuel
  induction fuel with
  | zero =>
    intro it i synced low enough
    rw [countLoop,drop_eq_nil_iff.mpr (by omega),countP_nil,add_zero]
  | succ fuel ih =>
    intro it i synced low enough
    have position : (it.pos+1).toNat = it.pos.toNat+1 := by omega
    rw [countLoop,iteratorNext_synced synced (by omega),position]
    cases here : c.data[it.pos.toNat+1]? with
    | none =>
      rw [drop_eq_nil_iff.mpr (getElem?_eq_none_iff.mp here)]
      rfl
    | some entry =>
      obtain ⟨small,rfl⟩ := List.getElem?_eq_some_iff.mp here
      have rest := ih ⟨it.sync,it.pos+1⟩ (if counts c.data[it.pos.toNat+1] then i+1 else i) synced (by simp only; omega)
        (by simp only; omega)
      rw [position] at rest
      rw [drop_eq_getElem_cons small,countP_cons]
      refine rest.trans ?_
      split
      · omega
      · omega

-- The entry at the first position is never looked at.
theorem countProcesses_eq :
    countProcesses counts table = ((sortArray compareEntry table.container).data.drop 1).countP counts := by
  simp only [countProcesses,iteratorGet,iteratorReset,sort_if_dirty]
  rw [countLoop_counts counts _ _ 0 rfl le_rfl (by simp)]
  simp

theorem compareEntry_iff : compareEntry left right ≤ 0 ↔ left.hrSWRunIndex ≤ right.hrSWRunIndex := by
  simp only [compareEntry,netsnmpCompareNetsnmpIndex,SwrunEntry.oidIndex,snmpOidCompare]
  rcases lt_trichotomy left.hrSWRunIndex right.hrSWRunIndex with less | equal | more
  · simp [less,less.ne,less.le]
  · simp [equal]
  · simp [more.ne',more.not_gt,more.not_ge]

def ProcessTable.Lowest (table : ProcessTable) (entry : SwrunEntry) : Prop :=
  entry ∈ table.container.data ∧ ∀ other ∈ table.container.data,entry.hrSWRunIndex ≤ other.hrSWRunIndex

theorem countProcesses_iff : countProcesses counts table = table.container.data.countP counts ↔
    ∀ entry,table.Lowest entry → counts entry = false := by
  have order : TotalPreorder compareEntry := compareIndex_preorder SwrunEntry.oidIndex
  have settled := sortArray_settled order table.sound
  have first : ∀ entry,(sortArray compareEntry table.container).data[0]? = some entry ↔ table.Lowest entry := by
    intro entry
    rw [ProcessTable.Lowest,settled.first order]
    exact and_congr_right fun _ => forall₂_congr fun other _ => compareEntry_iff
  rw [countProcesses_eq,← settled.same.countP_eq]
  simp only [← first]
  cases (sortArray compareEntry table.container).data with
  | nil => simp
  | cons head rest => simp [countP_cons]

end

theorem counts_miss_lowest_entry (pcre : Pcre) (table : ProcessTable) (name : CString) (regexp : pcre.Pattern) :
    (swrunCountProcessesByRegex pcre (some table) (some name) (some regexp) =
      table.container.data.countP (fun entry => pcre.Matches regexp (fullCommand entry)) ↔
      ∀ entry,table.Lowest entry → pcre.Matches regexp (fullCommand entry) = false) ∧
    (swrunCountProcessesByName (some table) (some name) =
      table.container.data.countP (fun entry => entry.hrSWRunName.text = name) ↔
      ∀ entry,table.Lowest entry → entry.hrSWRunName.text ≠ name) := by
  constructor
  · have matched : (fun entry => decide (pcre.exec regexp (fullCommand entry) > 0)) =
        fun entry => pcre.Matches regexp (fullCommand entry) :=
      funext fun entry => by rw [Bool.eq_iff_iff,decide_eq_true_iff,gt_iff_lt,pcre.positive]
    rw [swrunCountProcessesByRegex,matched]
    exact countProcesses_iff _
  have named : (fun entry : SwrunEntry => decide (strcmp entry.hrSWRunName.text.text name.text = 0)) =
      fun entry => decide (entry.hrSWRunName.text = name) :=
    funext fun entry => by
      rw [decide_eq_decide,strcmp_zero]
      exact ⟨CString.ext_text,fun same => by rw [same]⟩
  rw [swrunCountProcessesByName,named,countProcesses_iff]
  simp

def onlyEntry : SwrunEntry where
  hrSWRunIndex := 1
  hrSWRunName := (CharArray.blank 65 (by decide)).patch ⟨[115,105,112],true,by decide⟩
  hrSWRunPath := (CharArray.blank 129 (by decide)).patch ⟨[47,115,105,112],true,by decide⟩
  hrSWRunParameters := CharArray.blank 129 (by decide)

def onlyProcess : ProcessTable where
  container := (binaryArrayInsert compareEntry containerGetBinaryArray onlyEntry).2
  sound := ⟨rfl,rfl,List.pairwise_singleton _ _,fun _ => List.pairwise_singleton _ _,by decide⟩

def matchAll : Pcre := ⟨Unit,fun _ _ => 1,fun _ _ => true,by simp⟩

theorem running_daemon_not_counted :
    swrunCountProcessesByName (some onlyProcess) (some onlyEntry.hrSWRunName.text) = 0 ∧
    onlyProcess.container.data.countP (fun entry => entry.hrSWRunName.text = onlyEntry.hrSWRunName.text) = 1 ∧
    swrunCountProcessesByRegex matchAll (some onlyProcess) (some onlyEntry.hrSWRunName.text) (some ()) = 0 ∧
    onlyProcess.container.data.countP (fun entry => matchAll.Matches () (fullCommand entry)) = 1 := by
  have single : onlyProcess.container.data = [onlyEntry] := rfl
  refine ⟨rfl,?_,rfl,?_⟩
  · simp [single]
  · simp [single,matchAll]

end NetSnmp.Swrun
