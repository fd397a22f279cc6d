import SipxExternals.NetSnmpReadConfig
import SipxExternals.NetSnmpVacmAccess

namespace NetSnmp.VacmConfig
open Foundations.CStrings Foundations.Numerals Foundations.Selection ReadConfig VacmAccess VacmView
open Option (bind_eq_bind bind_some)
open List hiding after all set

def stNonvolatile : Int := 3
def viewRead : Fin vacmMaxViews := ⟨0,by decide⟩
def viewWrite : Fin vacmMaxViews := ⟨1,by decide⟩
def viewNotify : Fin vacmMaxViews := ⟨2,by decide⟩

-- The jumps to `next` in the search for the place of a new entry.
def passed (vp lp : AccessEntry) : Bool :=
  let group := memcmp lp.groupName.counted vp.groupName.counted (vp.groupName.strlen+1)
  let context := memcmp lp.contextPrefix.counted vp.contextPrefix.counted (vp.contextPrefix.strlen+1)
  if group > 0 then false
  else if group < 0 then true
  else if context > 0 then false
  else if context < 0 then true
  else if lp.securityModel > vp.securityModel then false
  else if lp.securityModel < vp.securityModel then true
  else if lp.securityLevel > vp.securityLevel then false
  else true

def vacmCreateAccessEntry (accessList : List AccessEntry) (groupName contextPrefix : CString)
    (securityModel securityLevel : Int) : Option (List AccessEntry × Nat) :=
  if groupFits : groupName.strlen < vacmMaxString then
    if contextFits : contextPrefix.strlen < vacmMaxString then
      let vp := blankEntry groupName contextPrefix securityModel securityLevel groupFits contextFits
      let op := accessList.takeWhile (passed vp)
      some (op++vp :: accessList.dropWhile (passed vp),op.length)
    else none
  else none

theorem stringLen_pos : 0 < vacmStringLen := by decide

structure Access where
  status : Int
  storageType : Int
  securityModel : Int
  securityLevel : Int
  contextMatch : Int
  groupName : CharArray vacmStringLen
  contextPrefix : CharArray vacmStringLen

-- `stack` is the variable before anything is assigned to it. The result is none if
-- atoi is given NULL.
def readAccess (stack : Access) (line : Option (List Char)) : Option (Access × Option (List Char)) := do
  let status ← line.map atoi
  let line := skipTokenConst line
  let storageType ← line.map atoi
  let line := skipTokenConst line
  let securityModel ← line.map atoi
  let line := skipTokenConst line
  let securityLevel ← line.map atoi
  let line := skipTokenConst line
  let contextMatch ← line.map atoi
  let line := skipTokenConst line
  let group := readInto stack.groupName stringLen_pos line
  let context := readInto stack.contextPrefix stringLen_pos group.2
  some (⟨status,storageType,securityModel,securityLevel,contextMatch,group.1,context.1⟩,context.2)

def findOrCreate (accessList : List AccessEntry) (access : Access) : Option (List AccessEntry × Nat) :=
  match vacmGetAccessEntry accessList access.groupName.text access.contextPrefix.text access.securityModel
      access.securityLevel with
  | some (_,place) => some (accessList,place)
  | none => vacmCreateAccessEntry accessList access.groupName.text access.contextPrefix.text access.securityModel
      access.securityLevel

def assign (access : Access) (aptr : AccessEntry) : AccessEntry :=
  { aptr with
    status := access.status
    storageType := access.storageType
    securityModel := access.securityModel
    securityLevel := access.securityLevel
    contextMatch := access.contextMatch }

-- The list, the place of *aptr in it, and the line that is returned.
def vacmParseConfigAccessCommon (stack : Access) (accessList : List AccessEntry) (line : Option (List Char)) :
    Option (List AccessEntry × Nat × Option (List Char)) := do
  let (access,line) ← readAccess stack line
  match findOrCreate accessList access with
  | some (accessList,place) => some (accessList.modify place (assign access),place,line)
  | none => some (accessList,0,none)

def readView (index : Fin vacmMaxViews) (line : Option (List Char)) (aptr : AccessEntry) : AccessEntry :=
  { aptr with views := aptr.views.set index (readInto (aptr.views.get index) stringLen_pos line).1 }

def afterView (line : Option (List Char)) : Option (List Char) :=
  (readConfigReadOctetString line vacmStringLen stringLen_pos).2

def vacmParseConfigAccess (stack : Access) (accessList : List AccessEntry) (line : Option (List Char)) :
    Option (List AccessEntry) := do
  let (accessList,place,line) ← vacmParseConfigAccessCommon stack accessList line
  if line.isNone then some accessList
  else
    let accessList := accessList.modify place (readView viewRead line)
    let line := afterView line
    let accessList := accessList.modify place (readView viewWrite line)
    let line := afterView line
    some (accessList.modify place (readView viewNotify line))

-- none for a view behind the end of the array.
def viewIndex (authtype : Int) : Option (Fin vacmMaxViews) :=
  if inside : 0 ≤ authtype ∧ authtype < vacmMaxViews then some ⟨authtype.toNat,by omega⟩ else none

def vacmParseConfigAuthAccess (stack : Access) (accessList : List AccessEntry) (line : Option (List Char)) :
    Option (List AccessEntry) := do
  let (accessList,place,line) ← vacmParseConfigAccessCommon stack accessList line
  match line with
  | none => some accessList
  | some text =>
    let index ← viewIndex (atoi text)
    some (accessList.modify place (readView index (skipTokenConst line)))

def saveInt (n : Int) (behind : List Char) : List Char := signedNumeral n++ ' ' :: behind

def saveString (s : CString) (behind : List Char) : List Char := readConfigSaveOctetString (s.text++[0])++behind

-- The lines are without the token in front, as the parsers get them.
def saveCommon (access_entry : AccessEntry) (behind : List Char) : List Char :=
  saveInt access_entry.status (saveInt access_entry.storageType (saveInt access_entry.securityModel
    (saveInt access_entry.securityLevel (saveInt access_entry.contextMatch
      (saveString access_entry.groupName (' ' :: saveString access_entry.contextPrefix behind))))))

def viewText (access_entry : AccessEntry) (index : Fin vacmMaxViews) : CString := (access_entry.views.get index).text

def vacmSaveAccess (access_entry : AccessEntry) : List Char :=
  saveCommon access_entry (' ' :: saveString (viewText access_entry viewRead)
    (' ' :: saveString (viewText access_entry viewWrite) (' ' :: saveString (viewText access_entry viewNotify) [])))

def vacmSaveAuthAccess (access_entry : AccessEntry) (authtype : Fin vacmMaxViews) : List Char :=
  saveCommon access_entry (' ' :: saveInt authtype.val (' ' :: saveString (viewText access_entry authtype) []))

inductive SavedLine where
  | access (line : List Char)
  | authAccess (line : List Char)

def standardViews : List (Fin vacmMaxViews) := [viewRead,viewWrite,viewNotify]

def otherViews : List (Fin vacmMaxViews) := (List.finRange vacmMaxViews).filter (viewNotify < ·)

def viewSet (access_entry : AccessEntry) (index : Fin vacmMaxViews) : Bool := (viewText access_entry index).text ≠ []

def saveEntry (aptr : AccessEntry) : List SavedLine :=
  if aptr.storageType = stNonvolatile then
    (if standardViews.any (viewSet aptr) then [.access (vacmSaveAccess aptr)] else []) ++
      (otherViews.filter (viewSet aptr)).map fun index => .authAccess (vacmSaveAuthAccess aptr index)
  else []

def vacmSave (accessList : List AccessEntry) : List SavedLine := accessList.flatMap saveEntry

def replayLine (stack : Access) (accessList : List AccessEntry) : SavedLine → Option (List AccessEntry)
  | .access line => vacmParseConfigAccess stack accessList (some line)
  | .authAccess line => vacmParseConfigAuthAccess stack accessList (some line)

def replay (stack : Access) (lines : List SavedLine) (accessList : List AccessEntry) : Option (List AccessEntry) :=
  lines.foldlM (replayLine stack) accessList

theorem atoi_saveInt : atoi (saveInt n behind) = n := atoi_signedNumeral

theorem saveInt_begins : Begins (saveInt n behind) :=
  begins_append (signedNumeral_begins n)

theorem saveString_begins (s : CString) (behind : List Char) : Begins (saveString s behind) :=
  begins_append saved_begins

theorem skipToken_saveInt (begins : Begins behind) : skipTokenConst (some (saveInt n behind)) = some behind := by
  have skipped := skipToken_word (signedNumeral_begins n) (fun c mem => (signedNumeral_solid mem).1) 0 begins
  rw [append_assoc] at skipped
  exact skipped

theorem skipWhite_blank (begins : Begins behind) : skipWhiteConst (some (' ' :: behind)) = some behind :=
  skipWhite_blanks 1 begins

structure Describes (e : AccessEntry) (access : Access) : Prop where
  status : access.status = e.status
  storageType : access.storageType = e.storageType
  securityModel : access.securityModel = e.securityModel
  securityLevel : access.securityLevel = e.securityLevel
  contextMatch : access.contextMatch = e.contextMatch
  groupName : access.groupName.text = e.groupName
  contextPrefix : access.contextPrefix.text = e.contextPrefix

theorem readAccess_saved (stack : Access) (stops : Stops behind) :
    ∃ access, readAccess stack (some (saveCommon e behind)) = some (access,skipWhiteConst (some behind)) ∧
      Describes e access := by
  have group_begins : Begins (saveString e.groupName (' ' :: saveString e.contextPrefix behind)) := saveString_begins _ _
  obtain ⟨group,group_read,group_text⟩ := readInto_saved stack.groupName e.groupName
    (.inr ⟨saveString e.contextPrefix behind,rfl⟩)
  obtain ⟨context,context_read,context_text⟩ := readInto_saved stack.contextPrefix e.contextPrefix stops
  have group_short := e.groupFits
  have context_short := e.contextFits
  simp only [vacmMaxString] at group_short context_short
  rw [if_pos (by simp only [vacmStringLen]; omega)] at group_text context_text
  rw [skipWhite_blank (saveString_begins _ _)] at group_read
  refine ⟨⟨e.status,e.storageType,e.securityModel,e.securityLevel,e.contextMatch,group,context⟩,?_,
    ⟨rfl,rfl,rfl,rfl,rfl,group_text,context_text⟩⟩
  have group_rest : readInto stack.groupName stringLen_pos
      (some (saveString e.groupName (' ' :: saveString e.contextPrefix behind))) =
      (group,some (saveString e.contextPrefix behind)) := group_read
  have context_rest : readInto stack.contextPrefix stringLen_pos (some (saveString e.contextPrefix behind)) =
      (context,skipWhiteConst (some behind)) := context_read
  simp only [readAccess,saveCommon,Option.map_some,bind_eq_bind,bind_some,atoi_saveInt,
    skipToken_saveInt saveInt_begins,skipToken_saveInt group_begins,group_rest,context_rest]

-- An entry is found when the index of another is looked up.
def Found (e slot : AccessEntry) : Prop := Matches e.groupName e.contextPrefix e.securityModel e.securityLevel slot

def blankOf (e : AccessEntry) : AccessEntry :=
  blankEntry e.groupName e.contextPrefix e.securityModel e.securityLevel e.groupFits e.contextFits

theorem modify_middle : (left++middle :: right).modify left.length f = left++f middle :: right := by
  induction left with
  | nil => rfl
  | cons first left ih =>
    rw [cons_append,length_cons,modify_succ_cons,ih]
    rfl

def Placed (e : AccessEntry) (accessList left : List AccessEntry) (base : AccessEntry) (right : List AccessEntry) : Prop :=
  (accessList = left++base :: right ∧ Found e base) ∨
  (accessList = left++right ∧ base = blankOf e ∧ ∀ slot ∈ accessList, ¬ Found e slot)

theorem findOrCreate_placed (describes : Describes e access) : ∃ left base right, Placed e accessList left base right ∧
      findOrCreate accessList access = some (left++base :: right,left.length) := by
  rw [findOrCreate,describes.groupName,describes.contextPrefix,describes.securityModel,describes.securityLevel]
  cases looked : vacmGetAccessEntry accessList e.groupName e.contextPrefix e.securityModel e.securityLevel with
  | some pointer =>
    obtain ⟨slot,place⟩ := pointer
    obtain ⟨left,right,rfl,rfl,found⟩ := vacmGetAccessEntry_place looked
    exact ⟨left,slot,right,.inl ⟨rfl,found⟩,rfl⟩
  | none =>
    refine ⟨accessList.takeWhile (passed (blankOf e)),blankOf e,accessList.dropWhile (passed (blankOf e)),
      .inr ⟨takeWhile_append_dropWhile.symm,rfl,fun slot mem found => ?_⟩,?_⟩
    · have free := (vacmGetAccessEntry_none _ _ _ _).mp looked
      exact filter_eq_nil_iff.mp free slot mem (decide_eq_true found)
    · simp only [vacmCreateAccessEntry,e.groupFits,e.contextFits,dif_pos]
      rfl

-- What a saved line makes of that entry. A view of 33 characters is not read back.
structure Updated (e : AccessEntry) (written : List (Fin vacmMaxViews)) (base slot : AccessEntry) : Prop where
  groupName : slot.groupName = base.groupName
  contextPrefix : slot.contextPrefix = base.contextPrefix
  securityModel : slot.securityModel = e.securityModel
  securityLevel : slot.securityLevel = e.securityLevel
  contextMatch : slot.contextMatch = e.contextMatch
  storageType : slot.storageType = e.storageType
  status : slot.status = e.status
  views : ∀ index, viewText slot index =
    if index ∈ written ∧ (viewText e index).strlen+1 < vacmStringLen then viewText e index else viewText base index

def LineStep (e : AccessEntry) (written : List (Fin vacmMaxViews)) (accessList result : List AccessEntry) : Prop :=
  ∃ left base right slot, Placed e accessList left base right ∧ Updated e written base slot ∧
    result = left++slot :: right

theorem updated_assign (describes : Describes e access) : Updated e [] base (assign access base) :=
  ⟨rfl,rfl,describes.securityModel,describes.securityLevel,describes.contextMatch,describes.storageType,
    describes.status,fun index => by simp only [not_mem_nil,false_and,if_false]; rfl⟩

theorem viewText_readView : viewText (readView index line slot) other =
      if other = index then (readInto (slot.views.get index) stringLen_pos line).1.text else viewText slot other := by
  have entry : viewText (readView index line slot) other =
      ((slot.views.set index (readInto (slot.views.get index) stringLen_pos line).1)[other.val]).text := rfl
  rw [entry,Vector.getElem_set]
  by_cases same : other = index
  · rw [if_pos same,if_pos (by rw [same])]
  · rw [if_neg same,if_neg (fun equal => same (Fin.ext equal.symm))]
    rfl

theorem updated_readView (updated : Updated e written base slot) (index : Fin vacmMaxViews) (stops : Stops behind) :
    Updated e (written++[index]) base (readView index (some (saveString (viewText e index) behind)) slot) := by
  refine ⟨updated.groupName,updated.contextPrefix,updated.securityModel,updated.securityLevel,updated.contextMatch,
    updated.storageType,updated.status,fun other => ?_⟩
  obtain ⟨b,read,text⟩ := readInto_saved (slot.views.get index) (viewText e index) stops
  rw [viewText_readView]
  by_cases same : other = index
  · subst same
    rw [if_pos rfl,saveString,read,text,← viewText,updated.views]
    by_cases short : (viewText e other).strlen+1 < vacmStringLen <;>
      simp [short]
  · rw [if_neg same,updated.views]
    simp [same]

theorem afterView_saved (stops : Stops behind) :
    afterView (some (saveString s behind)) = skipWhiteConst (some behind) := by
  obtain ⟨b,read,-⟩ := readInto_saved (CharArray.blank vacmStringLen stringLen_pos) s stops
  exact congrArg Prod.snd read

section
variable (stack : Access) (accessList : List AccessEntry) (e : AccessEntry)
include stack accessList e

theorem common_saved (behind : List Char) (stops : Stops behind) :
    ∃ left base right slot, Placed e accessList left base right ∧ Updated e [] base slot ∧
      vacmParseConfigAccessCommon stack accessList (some (saveCommon e behind)) =
        some (left++slot :: right,left.length,skipWhiteConst (some behind)) := by
  obtain ⟨access,read,describes⟩ := readAccess_saved stack stops
  obtain ⟨left,base,right,placed,found⟩ := findOrCreate_placed describes
  refine ⟨left,base,right,assign access base,placed,updated_assign describes,?_⟩
  simp [vacmParseConfigAccessCommon,read,found,modify_middle]

theorem access_step : ∃ result, vacmParseConfigAccess stack accessList (some (vacmSaveAccess e)) = some result ∧
      LineStep e standardViews accessList result := by
  obtain ⟨left,base,right,slot,placed,updated,common⟩ := common_saved stack accessList e
    (' ' :: saveString (viewText e viewRead) (' ' :: saveString (viewText e viewWrite)
      (' ' :: saveString (viewText e viewNotify) []))) (.inr ⟨_,rfl⟩)
  have first := updated_readView updated viewRead (.inr ⟨saveString (viewText e viewWrite)
      (' ' :: saveString (viewText e viewNotify) []),rfl⟩)
  have second := updated_readView first viewWrite (.inr ⟨saveString (viewText e viewNotify) [],rfl⟩)
  have third := updated_readView second viewNotify (.inl rfl)
  refine ⟨_,?_,left,base,right,_,placed,third,rfl⟩
  simp only [vacmParseConfigAccess,vacmSaveAccess,common,bind_eq_bind,bind_some,Option.isNone_some,
    Bool.false_eq_true,if_false,modify_middle,afterView_saved (.inr ⟨_,rfl⟩),skipWhite_blank (saveString_begins _ _)]

theorem auth_step :
    ∃ result, vacmParseConfigAuthAccess stack accessList (some (vacmSaveAuthAccess e index)) = some result ∧
      LineStep e [index] accessList result := by
  obtain ⟨left,base,right,slot,placed,updated,common⟩ := common_saved stack accessList e
    (' ' :: saveInt index.val (' ' :: saveString (viewText e index) [])) (.inr ⟨_,rfl⟩)
  rw [skipWhite_blank saveInt_begins] at common
  have skipped := skipToken_word (signedNumeral_begins index.val) (fun c mem => (signedNumeral_solid mem).1) 1
    (saveString_begins (viewText e index) [])
  rw [append_assoc] at skipped
  have line : skipTokenConst (some (saveInt index.val (' ' :: saveString (viewText e index) []))) =
      some (saveString (viewText e index) []) := skipped
  have inside : viewIndex index.val = some index := by
    rw [viewIndex,dif_pos ⟨by omega,by omega⟩]
    simp
  refine ⟨_,?_,left,base,right,_,placed,updated_readView updated index (.inl rfl),rfl⟩
  simp only [vacmParseConfigAuthAccess,vacmSaveAuthAccess,common,bind_eq_bind,bind_some,atoi_saveInt,
    inside,line,modify_middle]

end

inductive AuthRun (e : AccessEntry) : List (Fin vacmMaxViews) → List AccessEntry → List AccessEntry → Prop where
  | done (accessList : List AccessEntry) : AuthRun e [] accessList accessList
  | line (index : Fin vacmMaxViews) (step : LineStep e [index] before middle) (rest : AuthRun e indices middle after) :
      AuthRun e (index :: indices) before after

def EntryRun (e : AccessEntry) (before after : List AccessEntry) : Prop :=
  ∃ middle, LineStep e standardViews before middle ∧ AuthRun e (otherViews.filter (viewSet e)) middle after

inductive ListRun : List AccessEntry → List AccessEntry → List AccessEntry → Prop where
  | done (accessList : List AccessEntry) : ListRun [] accessList accessList
  | entry (run : EntryRun e before middle) (rest : ListRun entries middle after) : ListRun (e :: entries) before after

def Matched (e : AccessEntry) : Prop := e.contextMatch = contextMatchExact ∨ e.contextMatch = contextMatchPrefix

-- What is asked of the entries: they are written out, and are of one of the two modes.
structure Restorable (e : AccessEntry) : Prop where
  nonvolatile : e.storageType = stNonvolatile
  standard : standardViews.any (viewSet e) = true
  mode : e.contextMatch = contextMatchExact ∨ e.contextMatch = contextMatchPrefix

theorem replay_append (stack : Access) (accessList : List AccessEntry) :
    replay stack (first++second) accessList = (replay stack first accessList).bind (replay stack second) := by
  rw [replay,foldlM_append]
  rfl

theorem replay_auth (stack : Access) (e : AccessEntry) (accessList : List AccessEntry) :
    ∃ after, replay stack (indices.map fun index => .authAccess (vacmSaveAuthAccess e index)) accessList = some after ∧
      AuthRun e indices accessList after := by
  induction indices generalizing accessList with
  | nil => exact ⟨accessList,rfl,.done accessList⟩
  | cons index indices ih =>
    obtain ⟨middle,parsed,step⟩ := auth_step stack accessList e
    obtain ⟨after,replayed,rest⟩ := ih middle
    refine ⟨after,?_,.line index step rest⟩
    rw [map_cons,replay,foldlM_cons]
    simp only [replayLine,parsed,bind_eq_bind,bind_some]
    exact replayed

theorem replay_entry (stack : Access) (restorable : Restorable e) (accessList : List AccessEntry) :
    ∃ after, replay stack (saveEntry e) accessList = some after ∧ EntryRun e accessList after := by
  obtain ⟨middle,parsed,step⟩ := access_step stack accessList e
  obtain ⟨after,replayed,run⟩ := replay_auth stack e middle
  refine ⟨after,?_,middle,step,run⟩
  rw [saveEntry,if_pos restorable.nonvolatile,if_pos restorable.standard,replay_append]
  have first : replay stack [.access (vacmSaveAccess e)] accessList = some middle := by
    simp only [replay,foldlM_cons,foldlM_nil,replayLine,parsed,bind_eq_bind,bind_some]
    rfl
  rw [first,bind_some,replayed]

theorem replay_list (stack : Access) (restorable : ∀ e ∈ entries, Restorable e) (accessList : List AccessEntry) :
    ∃ after, replay stack (vacmSave entries) accessList = some after ∧ ListRun entries accessList after := by
  induction entries generalizing accessList with
  | nil => exact ⟨accessList,rfl,.done accessList⟩
  | cons e entries ih =>
    obtain ⟨middle,first,run⟩ := replay_entry stack (restorable e (.head _)) accessList
    obtain ⟨after,second,rest⟩ := ih (forall_mem_cons.mp restorable).2 middle
    refine ⟨after,?_,.entry run rest⟩
    rw [vacmSave,flatMap_cons,replay_append,first,bind_some]
    exact second

def Own (e slot : AccessEntry) : Prop := slot.groupName = e.groupName ∧ slot.contextPrefix = e.contextPrefix ∧ Found e slot

theorem own_updated (mode : Matched e) (updated : Updated e written base slot)
    (group : base.groupName = e.groupName) (context : base.contextPrefix = e.contextPrefix) : Own e slot := by
  have same_context := updated.contextPrefix.trans context
  refine ⟨updated.groupName.trans group,same_context,.inl updated.securityModel,updated.securityLevel.le,
    updated.groupName.trans group,e.contextFits,?_⟩
  rw [updated.contextMatch,same_context]
  exact mode.imp (⟨·,rfl⟩) (⟨·,prefix_rfl⟩)

section
variable (step : LineStep e written before after)
include step

theorem step_keeps {P : AccessEntry → Prop}
    (updates : ∀ base slot, base ∈ before → Found e base → P base → Updated e written base slot → P slot)
    (here : ∃ slot ∈ before, P slot) : ∃ slot ∈ after, P slot := by
  obtain ⟨kept,mem,is⟩ := here
  obtain ⟨left,base,right,slot,⟨rfl,found⟩ | ⟨rfl,rfl,-⟩,updated,rfl⟩ := step
  · rcases mem_append.mp mem with inLeft | inRight
    · exact ⟨kept,by simp [inLeft],is⟩
    · rcases mem_cons.mp inRight with rfl | inRight
      · exact ⟨slot,by simp,updates kept slot mem found is updated⟩
      · exact ⟨kept,by simp [inRight],is⟩
  · rcases mem_append.mp mem with inLeft | inRight
    · exact ⟨kept,by simp [inLeft],is⟩
    · exact ⟨kept,by simp [inRight],is⟩

variable (mode : Matched e)
include mode

theorem step_length : (after.length = before.length ∧ ∃ slot ∈ before, Found e slot) ∨
    (after.length = before.length+1 ∧ (∀ slot ∈ before, ¬ Found e slot) ∧ ∃ slot ∈ after, Own e slot) := by
  obtain ⟨left,base,right,slot,⟨rfl,found⟩ | ⟨rfl,rfl,free⟩,updated,rfl⟩ := step
  · exact .inl ⟨by simp,base,by simp,found⟩
  refine .inr ⟨?_,free,slot,by simp,own_updated mode updated rfl rfl⟩
  simp only [length_append,length_cons]
  omega

theorem step_own (own : ∃ slot ∈ before, Own e slot) : ∃ slot ∈ after, Own e slot :=
  step_keeps step (fun _ _ _ _ is updated => own_updated mode updated is.1 is.2.1) own

end

theorem authRun_own (mode : Matched e)
    (run : AuthRun e indices before after) (own : ∃ slot ∈ before, Own e slot) : after.length = before.length := by
  induction run with
  | done accessList => rfl
  | line index step rest ih =>
    rw [ih (step_own step mode own)]
    rcases step_length step mode with ⟨same,-⟩ | ⟨-,free,-⟩
    · exact same
    · obtain ⟨slot,mem,is⟩ := own
      exact absurd is.2.2 (free slot mem)

def Bare (slot : AccessEntry) : Prop := ∀ index ∈ standardViews, viewText slot index = CString.empty

theorem viewText_blankOf : viewText (blankOf e) index = CString.empty := by
  apply CString.ext_text
  have view : (blankOf e).views.get index = CharArray.blank vacmStringLen stringLen_pos := Vector.getElem_replicate _
  rw [viewText,view]
  exact CharArray.text_blank

theorem standard_not_other : ∀ index ∈ standardViews, index ∉ otherViews := by decide

theorem bare_updated (other : index ∈ otherViews) (bare : Bare base) (updated : Updated e [index] base slot) : Bare slot := by
  intro standard mem
  have differ : standard ≠ index := fun same => standard_not_other standard mem (same ▸ other)
  rw [updated.views,if_neg (by simp [differ])]
  exact bare standard mem

theorem auth_bare (other : index ∈ otherViews) (step : LineStep e [index] before after)
    (bare : (∃ slot ∈ before, Bare slot) ∨ after.length ≠ before.length) : ∃ slot ∈ after, Bare slot := by
  rcases bare with here | grown
  · exact step_keeps step (fun _ _ _ _ => bare_updated other) here
  obtain ⟨left,base,right,slot,⟨rfl,found⟩ | ⟨rfl,rfl,free⟩,updated,rfl⟩ := step
  · simp at grown
  · exact ⟨slot,by simp,bare_updated other (fun index _ => viewText_blankOf) updated⟩

theorem authRun_bare (others : ∀ index ∈ indices, index ∈ otherViews) (run : AuthRun e indices before after)
    (bare : (∃ slot ∈ before, Bare slot) ∨ after.length ≠ before.length) : ∃ slot ∈ after, Bare slot := by
  induction run with
  | done accessList => exact bare.resolve_right (by simp)
  | @line before middle indices after index step rest ih =>
    have first := auth_bare (others index (.head _)) step
    refine ih (forall_mem_cons.mp others).2 ?_
    by_cases grown : middle.length = before.length
    · rw [grown]
      exact bare.imp_left fun before_bare => first (.inl before_bare)
    · exact .inl (first (.inr grown))

theorem authRun_length (mode : Matched e) (run : AuthRun e indices before after) : after.length ≤ before.length+1 := by
  induction run with
  | done accessList => omega
  | line index step rest ih =>
    rcases step_length step mode with ⟨same,-⟩ | ⟨grown,-,own⟩
    · omega
    · rw [authRun_own mode rest own]
      omega

section
variable (mode : Matched e) (run : EntryRun e before after)
include mode run

theorem entryRun_length : after.length ≤ before.length+1 := by
  obtain ⟨middle,step,rest⟩ := run
  rcases step_length step mode with ⟨same,-⟩ | ⟨grown,-,own⟩
  · have bound := authRun_length mode rest
    omega
  · rw [authRun_own mode rest own]
    omega

omit mode run in
theorem saved_others : ∀ index ∈ otherViews.filter (viewSet e), index ∈ otherViews :=
  fun _ mem => (mem_filter.mp mem).1

theorem entryRun_hit (found : ∃ slot ∈ before, Found e slot) (grown : after.length ≠ before.length) :
    ∃ slot ∈ after, Bare slot := by
  obtain ⟨middle,step,rest⟩ := run
  rcases step_length step mode with ⟨same,-⟩ | ⟨-,free,-⟩
  · exact authRun_bare saved_others rest (.inr (by rw [same]; exact grown))
  · obtain ⟨slot,mem,is⟩ := found
    exact absurd is (free slot mem)

end

theorem entryRun_bare (free : ∀ slot ∈ before, ¬ Found e slot) (run : EntryRun e before after)
    (bare : ∃ slot ∈ before, Bare slot) : ∃ slot ∈ after, Bare slot := by
  obtain ⟨middle,step,rest⟩ := run
  refine authRun_bare saved_others rest (.inl (step_keeps step ?_ bare))
  exact fun base _ mem found => absurd found (free base mem)

inductive FreshRun : List AccessEntry → List AccessEntry → List AccessEntry → Prop where
  | done (accessList : List AccessEntry) : FreshRun [] accessList accessList
  | entry (free : ∀ slot ∈ before, ¬ Found e slot) (run : EntryRun e before middle) (rest : FreshRun entries middle after) :
      FreshRun (e :: entries) before after

theorem freshRun_bare (run : FreshRun entries before after) (bare : ∃ slot ∈ before, Bare slot) :
    ∃ slot ∈ after, Bare slot := by
  induction run with
  | done accessList => exact bare
  | entry free run rest ih => exact ih (entryRun_bare free run bare)

section
variable (restorable : ∀ e ∈ entries, Restorable e) (run : ListRun entries before after)
include restorable run

theorem listRun_length : after.length ≤ before.length+entries.length := by
  induction run with
  | done accessList => simp
  | @entry e before middle entries after run rest ih =>
    have first := entryRun_length (restorable e (.head _)).mode run
    have others := ih (forall_mem_cons.mp restorable).2
    rw [length_cons]
    omega

-- As many entries as were saved: one was created for each. If one was found, its own came from another line.
theorem listRun_full (full : after.length = before.length+entries.length) :
    FreshRun entries before after ∨ ∃ slot ∈ after, Bare slot := by
  induction run with
  | done accessList => exact .inl (.done accessList)
  | @entry e before middle entries after run rest ih =>
    have mode := (restorable e (.head _)).mode
    have others : ∀ other ∈ entries, Restorable other := (forall_mem_cons.mp restorable).2
    have first := entryRun_length mode run
    have second := listRun_length others rest
    rw [length_cons] at full
    rcases ih others (by omega) with fresh | bare
    · by_cases found : ∃ slot ∈ before, Found e slot
      · exact .inr (freshRun_bare fresh (entryRun_hit mode run found (by omega)))
      · exact .inl (.entry (fun slot mem is => found ⟨slot,mem,is⟩) run fresh)
    · exact .inr bare

end

theorem updated_trans (first : Updated e written base middle) (second : Updated e more middle slot) :
    Updated e (written++more) base slot := by
  refine ⟨second.groupName.trans first.groupName,second.contextPrefix.trans first.contextPrefix,second.securityModel,
    second.securityLevel,second.contextMatch,second.storageType,second.status,fun index => ?_⟩
  rw [second.views,first.views]
  by_cases short : (viewText e index).strlen+1 < vacmStringLen
  · by_cases late : index ∈ more
    · simp [short,late]
    · simp [short,late]
  · simp [short]

-- While the lines of an entry are read, nothing but what was created for it is found.
theorem authRun_fresh (mode : Matched e)
    (run : AuthRun e indices middle after) (perm : List.Perm middle (slot :: rest)) (free : ∀ other ∈ rest, ¬ Found e other)
    (updated : Updated e written (blankOf e) slot) :
    ∃ last, List.Perm after (last :: rest) ∧ Updated e (written++indices) (blankOf e) last := by
  induction run generalizing slot written with
  | done accessList => exact ⟨slot,perm,by rw [append_nil]; exact updated⟩
  | @line before middle indices after index step run ih =>
    have own := own_updated mode updated rfl rfl
    obtain ⟨left,base,right,next,⟨rfl,found⟩ | ⟨rfl,rfl,unfound⟩,changed,rfl⟩ := step
    · have here : base = slot := by
        rcases mem_cons.mp (perm.mem_iff.mp (show base ∈ left++base :: right by simp)) with same | mem
        · exact same
        · exact absurd found (free base mem)
      subst here
      have others : List.Perm (left++right) rest := (perm_middle.symm.trans perm).cons_inv
      obtain ⟨last,final,done⟩ := ih (perm_middle.trans (others.cons next)) (updated_trans updated changed)
      rw [append_assoc] at done
      exact ⟨last,final,done⟩
    · exact absurd own.2.2 (unfound slot (perm.mem_iff.mpr (.head _)))

theorem entryRun_fresh (mode : Matched e) (run : EntryRun e before after) (free : ∀ slot ∈ before, ¬ Found e slot) :
    ∃ slot, List.Perm after (slot :: before) ∧
      Updated e (standardViews++otherViews.filter (viewSet e)) (blankOf e) slot := by
  obtain ⟨middle,step,rest⟩ := run
  obtain ⟨left,base,right,slot,⟨rfl,found⟩ | ⟨rfl,rfl,-⟩,updated,rfl⟩ := step
  · exact absurd found (free base (by simp))
  · exact authRun_fresh mode rest perm_middle free updated

structure Contents where
  groupName : CString
  contextPrefix : CString
  securityModel : Int
  securityLevel : Int
  contextMatch : Int
  storageType : Int
  status : Int
  views : Fin vacmMaxViews → CString
deriving DecidableEq

def contents (e : AccessEntry) : Contents :=
  ⟨e.groupName,e.contextPrefix,e.securityModel,e.securityLevel,e.contextMatch,e.storageType,e.status,viewText e⟩

def restored (e : AccessEntry) : Contents :=
  { contents e with
    views := fun index => if (viewText e index).strlen+1 < vacmStringLen then viewText e index else CString.empty }

theorem standard_or_other : ∀ index, index ∈ standardViews ∨ index ∈ otherViews := by decide

theorem contents_restored (updated : Updated e (standardViews++otherViews.filter (viewSet e)) (blankOf e) slot) :
    contents slot = restored e := by
  have views : viewText slot = (restored e).views := by
    funext index
    rw [updated.views,viewText_blankOf]
    by_cases saved : index ∈ standardViews++otherViews.filter (viewSet e)
    · simp only [saved,true_and]
      rfl
    rw [mem_append,not_or] at saved
    have unset : (viewText e index).text = [] := by
      have other := (standard_or_other index).resolve_left saved.1
      simpa [other,viewSet] using saved.2
    have empty : viewText e index = CString.empty := CString.ext_text unset
    change _ = if (viewText e index).strlen+1 < vacmStringLen then viewText e index else CString.empty
    rw [empty,ite_self,ite_self]
  rw [contents,views,updated.groupName,updated.contextPrefix,updated.securityModel,updated.securityLevel,
    updated.contextMatch,updated.storageType,updated.status]
  rfl

theorem freshRun_contents (restorable : ∀ e ∈ entries, Restorable e) (run : FreshRun entries before after) :
    List.Perm (after.map contents) (entries.map restored++before.map contents) := by
  induction run with
  | done accessList => exact .refl _
  | @entry before e middle entries after free run rest ih =>
    obtain ⟨slot,perm,updated⟩ := entryRun_fresh (restorable e (.head _)).mode run free
    have first := perm.map contents
    rw [map_cons,contents_restored updated] at first
    have others := ih (forall_mem_cons.mp restorable).2
    exact (others.trans (first.append_left _)).trans perm_middle

theorem found_updated (updated : Updated e written (blankOf e) slot) : Found other slot ↔ Found other e := by
  have group : slot.groupName = e.groupName := updated.groupName
  have context : slot.contextPrefix = e.contextPrefix := updated.contextPrefix
  simp [Found,Matches,group,context,updated.securityModel,updated.securityLevel,updated.contextMatch]

theorem freshRun_pairwise (restorable : ∀ e ∈ entries, Restorable e) (run : FreshRun entries before after) :
    (∀ e ∈ entries, ∀ slot ∈ before, ¬ Found e slot) ∧ entries.Pairwise fun earlier later => ¬ Found later earlier := by
  induction run with
  | done accessList => exact ⟨by simp,.nil⟩
  | @entry before e middle entries after free run rest ih =>
    obtain ⟨slot,perm,updated⟩ := entryRun_fresh (restorable e (.head _)).mode run free
    obtain ⟨unfound,pairs⟩ := ih (forall_mem_cons.mp restorable).2
    have later : ∀ other ∈ entries, ¬ Found other e := fun other mem found =>
      unfound other mem slot (perm.mem_iff.mpr (.head _)) ((found_updated updated).mpr found)
    refine ⟨fun other mem known known_in => ?_,pairwise_cons.mpr ⟨later,pairs⟩⟩
    rcases mem_cons.mp mem with rfl | mem
    · exact free known known_in
    · exact unfound other mem known (perm.mem_iff.mpr (.tail _ known_in))

theorem listRun_fresh (restorable : ∀ e ∈ entries, Restorable e) (run : ListRun entries before after)
    (free : ∀ e ∈ entries, ∀ slot ∈ before, ¬ Found e slot)
    (ordered : entries.Pairwise fun earlier later => ¬ Found later earlier) : FreshRun entries before after := by
  induction run with
  | done accessList => exact .done accessList
  | @entry e before middle entries after run rest ih =>
    obtain ⟨later,pairs⟩ := pairwise_cons.mp ordered
    have free_first := free e (.head _)
    obtain ⟨slot,perm,updated⟩ := entryRun_fresh (restorable e (.head _)).mode run free_first
    refine .entry free_first run (ih (forall_mem_cons.mp restorable).2 ?_ pairs)
    intro other mem known known_in
    rcases mem_cons.mp (perm.mem_iff.mp known_in) with rfl | known_in
    · rw [found_updated updated]
      exact later other mem
    · exact free other (.tail _ mem) known known_in

theorem not_bare (restorable : Restorable e) (same : contents slot = contents e) : ¬ Bare slot := by
  intro bare
  obtain ⟨index,mem,set⟩ := any_eq_true.mp restorable.standard
  have views := congrFun (congrArg Contents.views same) index
  have empty : viewText e index = CString.empty := views.symm.trans (bare index mem)
  simp [viewSet,empty] at set

theorem restored_short (short : ∀ index, (viewText e index).strlen+1 < vacmStringLen) : restored e = contents e := by
  have views : (restored e).views = viewText e := funext fun index => if_pos (short index)
  exact congrArg (fun views => { contents e with views := views }) views

def key (e : AccessEntry) : CString × CString × Int × Int :=
  (e.groupName,e.contextPrefix,e.securityModel,e.securityLevel)

theorem restored_views {accessList : List AccessEntry} (distinct : (accessList.map key).Nodup) (mem : e ∈ accessList)
    (known : restored e ∈ accessList.map contents) (index : Fin vacmMaxViews) :
    (viewText e index).strlen+1 < vacmStringLen := by
  obtain ⟨other,inList,same⟩ := mem_map.mp known
  have keys : key other = key e := by
    have parts := congrArg (fun c : Contents => (c.groupName,c.contextPrefix,c.securityModel,c.securityLevel)) same
    exact parts
  have equal : other = e := inj_on_of_nodup_map distinct inList mem keys
  subst equal
  have views := congrFun (congrArg Contents.views same) index
  by_contra long
  have empty : viewText other index = CString.empty := views.trans (if_neg long)
  rw [empty] at long
  simp [CString.strlen,vacmStringLen] at long

theorem access_list_restored_iff (stack : Access) (accessList : List AccessEntry)
    (restorable : ∀ e ∈ accessList, Restorable e) (distinct : (accessList.map key).Nodup) :
    (∃ final, replay stack (vacmSave accessList) [] = some final ∧
      List.Perm (final.map contents) (accessList.map contents)) ↔
    (accessList.Pairwise fun earlier later => ¬ Found later earlier) ∧
      ∀ e ∈ accessList, ∀ index, (viewText e index).strlen ≤ vacmMaxString := by
  obtain ⟨after,replayed,run⟩ := replay_list stack restorable []
  constructor
  · rintro ⟨final,is,perm⟩
    obtain rfl : after = final := Option.some.inj (replayed.symm.trans is)
    have full : after.length = accessList.length := by simpa using perm.length_eq
    rcases listRun_full restorable run (by simpa using full) with fresh | ⟨slot,member,bare⟩
    · refine ⟨(freshRun_pairwise restorable fresh).2,fun e member index => ?_⟩
      have all := (freshRun_contents restorable fresh).symm.trans perm
      rw [map_nil,append_nil] at all
      have short := restored_views distinct member (all.mem_iff.mp (mem_map_of_mem member)) index
      simp only [vacmStringLen] at short
      simp only [vacmMaxString]
      omega
    · obtain ⟨e,inList,same⟩ := mem_map.mp (perm.mem_iff.mp (mem_map_of_mem member))
      exact absurd bare (not_bare (restorable e inList) same.symm)
  · rintro ⟨ordered,short⟩
    have fresh := listRun_fresh restorable run (by simp) ordered
    have all := freshRun_contents restorable fresh
    rw [map_nil,append_nil] at all
    refine ⟨after,replayed,all.trans (List.Perm.of_eq (map_congr_left fun e member => restored_short fun index => ?_))⟩
    have bound := short e member index
    simp only [vacmMaxString] at bound
    simp only [vacmStringLen]
    omega

def sampleStack : Access :=
  ⟨0,0,0,0,0,CharArray.blank vacmStringLen stringLen_pos,CharArray.blank vacmStringLen stringLen_pos⟩

def sampleView : CharArray vacmStringLen :=
  (CharArray.blank vacmStringLen stringLen_pos).patch ⟨[0x76],true,by decide⟩

def sampleEntry (securityModel securityLevel : Int) : AccessEntry :=
  { blankEntry sampleGroup CString.empty securityModel securityLevel sampleGroup_fits empty_fits with
    contextMatch := contextMatchPrefix
    views := (Vector.replicate vacmMaxViews (CharArray.blank vacmStringLen stringLen_pos)).set viewRead sampleView
    storageType := stNonvolatile
    status := 1 }

theorem sampleEntry_restorable : Restorable (sampleEntry securityModel securityLevel) :=
  ⟨rfl,rfl,.inr rfl⟩

theorem general_entry_overwritten :
    (∀ e ∈ [sampleEntry 0 1,sampleEntry 2 3], Restorable e) ∧ ([sampleEntry 0 1,sampleEntry 2 3].map key).Nodup ∧
    (replay sampleStack (vacmSave [sampleEntry 0 1,sampleEntry 2 3]) []).map (·.map contents) =
      some [contents (sampleEntry 2 3)] := by
  exact ⟨by simp [sampleEntry_restorable],by decide,by decide +kernel⟩

theorem access_list_restored_sample :
    ∃ final, replay sampleStack (vacmSave [sampleEntry 2 3,sampleEntry 0 1]) [] = some final ∧
      List.Perm (final.map contents) ([sampleEntry 2 3,sampleEntry 0 1].map contents) := by
  refine (access_list_restored_iff sampleStack [sampleEntry 2 3,sampleEntry 0 1] ?_ (by decide)).mpr ⟨?_,?_⟩
  · simp [sampleEntry_restorable]
  · simp only [Found]
    decide
  · decide +kernel

end NetSnmp.VacmConfig
