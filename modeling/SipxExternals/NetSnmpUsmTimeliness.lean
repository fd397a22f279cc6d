import Mathlib.Algebra.Group.Int.Defs
import Mathlib.Algebra.Group.Nat.Defs
import Mathlib.Data.List.Basic
import Mathlib.Order.Lattice

namespace NetSnmp.UsmTimeliness
open List

def usmMaxIdLength : Nat := 1024
def usmTimeWindow : Nat := 150
def enginetimeMax : Nat := 2147483647
def enginebootMax : Nat := 2147483647

inductive UsmError where
  | genericError | notInTimeWindow
deriving DecidableEq

-- enginetime_struct. The values were in a message, whose parser refuses larger ones.
structure Enginetime where
  engineID : List UInt8
  engineTime : Nat
  engineBoot : Nat
  lastReceivedEngineTime : Nat
  authenticatedFlag : Bool
  timeFits : engineTime ≤ enginetimeMax
  bootFits : engineBoot ≤ enginebootMax
deriving DecidableEq

structure Message where
  secEngineID : List UInt8
  boots_uint : Nat
  time_uint : Nat
  timeFits : time_uint ≤ enginetimeMax
  bootFits : boots_uint ≤ enginebootMax

structure Engine where
  myID : List UInt8
  myBoots : Nat

-- `elapsed` counts the seconds since the start of the local engine; the hash lists of
-- etimelist are one list.
structure State where
  elapsed : Nat
  etimelist : List Enginetime

def localEngineTime (s : State) : Nat := s.elapsed%2^31

def int32 (x : Int) : Int := x.bmod (2^32)
def uint32 (x : Int) : Nat := (x%2^32).toNat

def searchEnginetimeList (etimelist : List Enginetime) (engineID : List UInt8) : Option Enginetime :=
  if engineID = [] then none else etimelist.find? (·.engineID = engineID)

structure Estimate where
  engineboot : Nat
  engineTime : Nat
  lastEngineTime : Nat
deriving DecidableEq

def getEnginetimeEx (s : State) (engineID : List UInt8) (authenticated : Bool) : Option Estimate :=
  if engineID = [] then none
  else match searchEnginetimeList s.etimelist engineID with
    | none => none
    | some e =>
      let known := !authenticated || e.authenticatedFlag
      let engineTime := if known then e.engineTime else 0
      let engineboot := if known then e.engineBoot else 0
      let timediff := if known then int32 (localEngineTime s - e.lastReceivedEngineTime) else 0
      let left := int32 (enginetimeMax - engineTime)
      if timediff > left then
        some ⟨if engineboot < enginebootMax then engineboot+1 else engineboot,uint32 (timediff-left),engineTime⟩
      else some ⟨engineboot,uint32 (engineTime+timediff),engineTime⟩

def store (e : Enginetime) : List Enginetime → List Enginetime
  | [] => []
  | first :: rest => if first.engineID = e.engineID then e :: rest else first :: store e rest

def setEnginetime (s : State) (engineID : List UInt8) (engineboot engine_time : Nat) (timeFits : engine_time ≤ enginetimeMax)
    (bootFits : engineboot ≤ enginebootMax) (authenticated : Bool) : State :=
  if engineID = [] then s
  else
    let created : Enginetime := ⟨engineID,0,0,0,false,by decide,by decide⟩
    let found := searchEnginetimeList s.etimelist engineID
    let e := found.getD created
    let etimelist := if found.isSome then s.etimelist else created :: s.etimelist
    if authenticated || !e.authenticatedFlag then
      { s with etimelist := store ⟨e.engineID,engine_time,engineboot,localEngineTime s,authenticated,timeFits,bootFits⟩ etimelist }
    else { s with etimelist := etimelist }

def timeDifference (theirs given : Nat) : Nat := if theirs > given then theirs-given else given-theirs

def usmCheckAndUpdateTimeliness (self : Engine) (s : State) (m : Message) : Except UsmError Unit × State :=
  if self.myID.length > usmMaxIdLength ∨ self.myID.length = 0 then (.error .genericError,s)
  else if m.secEngineID = self.myID then
    if m.boots_uint = enginebootMax ∨ m.boots_uint ≠ self.myBoots ∨
        timeDifference (localEngineTime s) m.time_uint > usmTimeWindow then (.error .notInTimeWindow,s)
    else (.ok (),s)
  else match getEnginetimeEx s m.secEngineID true with
    | none => (.error .genericError,s)
    | some their =>
      if their.engineboot = enginebootMax ∨ their.engineboot > m.boots_uint then (.error .notInTimeWindow,s)
      else if their.engineboot = m.boots_uint ∧ m.time_uint < their.lastEngineTime then
        if timeDifference their.engineTime m.time_uint > usmTimeWindow then (.error .notInTimeWindow,s)
        else (.ok (),s)
      else (.ok (),setEnginetime s m.secEngineID m.boots_uint m.time_uint m.timeFits m.bootFits true)

def accepts (self : Engine) (s : State) (m : Message) : Bool := (usmCheckAndUpdateTimeliness self s m).1.isOk

inductive Event where
  | advance (seconds : Nat)
  | receive (m : Message)

def step (self : Engine) (s : State) : Event → State
  | .advance seconds => { s with elapsed := s.elapsed+seconds }
  | .receive m => (usmCheckAndUpdateTimeliness self s m).2

theorem int32_small (lower : 0 ≤ x) (upper : x < 2^31) : int32 x = x := by
  rw [int32,Int.bmod_def]
  omega

theorem uint32_small (lower : 0 ≤ x) (upper : x < 2^32) : (uint32 x : Int) = x := by
  rw [uint32]
  omega

theorem find_store_same (e : Enginetime)
    (known : (etimelist.find? (·.engineID = e.engineID)).isSome) : (store e etimelist).find? (·.engineID = e.engineID) = some e := by
  induction etimelist with
  | nil => simp at known
  | cons first rest ih =>
    rw [store]
    split
    · exact find?_cons_of_pos (by simp)
    · rename_i differ
      rw [find?_cons_of_neg (by simpa using differ)] at known ⊢
      exact ih known

theorem find_store_other (differ : engineID ≠ e.engineID) :
    (store e etimelist).find? (·.engineID = engineID) = etimelist.find? (·.engineID = engineID) := by
  induction etimelist with
  | nil => rfl
  | cons first rest ih =>
    rw [store]
    split
    · rename_i same
      have first_other : first.engineID ≠ engineID := fun equal => differ (equal.symm.trans same)
      rw [find?_cons_of_neg (by simpa using differ.symm),find?_cons_of_neg (by simpa using first_other)]
    · rw [find?_cons,find?_cons,ih]

theorem search_engineID (found : searchEnginetimeList etimelist engineID = some e) : e.engineID = engineID ∧ engineID ≠ [] := by
  rw [searchEnginetimeList] at found
  split at found
  · cases found
  · rename_i some_id
    exact ⟨by simpa using find?_some found,some_id⟩

section
variable (s : State) (timeFits : engine_time ≤ enginetimeMax) (bootFits : engineboot ≤ enginebootMax)

@[simp] theorem setEnginetime_elapsed :
    (setEnginetime s engineID engineboot engine_time timeFits bootFits authenticated).elapsed = s.elapsed := by
  rw [setEnginetime]
  split
  · rfl
  dsimp only
  split
  · rfl
  · rfl

theorem search_set_same (some_id : engineID ≠ []) :
    searchEnginetimeList (setEnginetime s engineID engineboot engine_time timeFits bootFits true).etimelist engineID =
      some ⟨engineID,engine_time,engineboot,localEngineTime s,true,timeFits,bootFits⟩ := by
  simp only [setEnginetime,some_id,if_false,Bool.true_or,if_true]
  cases found : searchEnginetimeList s.etimelist engineID with
  | none =>
    simp only [Option.getD_none,Option.isSome_none,Bool.false_eq_true,if_false,searchEnginetimeList,some_id]
    exact find_store_same ⟨engineID,engine_time,engineboot,localEngineTime s,true,timeFits,bootFits⟩ (by simp)
  | some e =>
    obtain ⟨same,-⟩ := search_engineID found
    simp only [Option.getD_some,Option.isSome_some,if_true,searchEnginetimeList,some_id,if_false,same] at found ⊢
    exact find_store_same ⟨engineID,engine_time,engineboot,localEngineTime s,true,timeFits,bootFits⟩ (by simp [found])

theorem search_set_other (differ : other ≠ engineID) :
    searchEnginetimeList (setEnginetime s engineID engineboot engine_time timeFits bootFits true).etimelist other =
      searchEnginetimeList s.etimelist other := by
  rw [setEnginetime]
  split
  · rfl
  simp only [Bool.true_or,if_true]
  cases found : searchEnginetimeList s.etimelist engineID with
  | none =>
    simp only [Option.getD_none,Option.isSome_none,Bool.false_eq_true,if_false,searchEnginetimeList]
    split
    · rfl
    · rw [find_store_other differ,find?_cons_of_neg (by simpa using differ.symm)]
  | some e =>
    obtain ⟨same,-⟩ := search_engineID found
    simp only [Option.getD_some,Option.isSome_some,if_true,searchEnginetimeList]
    split
    · rfl
    · rw [find_store_other (by simpa [same] using differ)]

end

-- The clock has not wrapped, and the record is not from its future.
structure Current (s : State) (e : Enginetime) : Prop where
  known : searchEnginetimeList s.etimelist e.engineID = some e
  authenticated : e.authenticatedFlag = true
  past : e.lastReceivedEngineTime ≤ s.elapsed
  unwrapped : s.elapsed < 2^31

theorem estimate_current (current : Current s e) :
    ∃ their, getEnginetimeEx s e.engineID true = some their ∧ their.lastEngineTime = e.engineTime ∧
      ((their.engineboot = e.engineBoot ∧ their.engineTime+e.lastReceivedEngineTime = e.engineTime+s.elapsed) ∨
        (their.engineboot = enginebootMax ∨ their.engineboot = e.engineBoot+1)) := by
  obtain ⟨-,some_id⟩ := search_engineID current.known
  have past := current.past
  have unwrapped := current.unwrapped
  have small := e.timeFits
  simp only [enginetimeMax] at small
  have now : localEngineTime s = s.elapsed := Nat.mod_eq_of_lt unwrapped
  have timediff : int32 (localEngineTime s-e.lastReceivedEngineTime) = s.elapsed-e.lastReceivedEngineTime := by
    rw [now]
    exact int32_small (by omega) (by omega)
  have left : int32 (enginetimeMax-e.engineTime) = enginetimeMax-e.engineTime :=
    int32_small (by simp only [enginetimeMax]; omega) (by simp only [enginetimeMax]; omega)
  simp only [getEnginetimeEx,some_id,if_false,current.known,current.authenticated,Bool.or_true,if_true,timediff,left]
  split
  · refine ⟨_,rfl,rfl,.inr ?_⟩
    have bound := e.bootFits
    dsimp only
    split
    · exact .inr rfl
    · omega
  · rename_i fits
    refine ⟨_,rfl,rfl,.inl ⟨rfl,?_⟩⟩
    have value := @uint32_small (e.engineTime+(s.elapsed-e.lastReceivedEngineTime)) (by omega) (by omega)
    dsimp only
    omega

theorem estimate_known (known : searchEnginetimeList s.etimelist e.engineID = some e) (authenticated : e.authenticatedFlag = true) :
    ∃ their, getEnginetimeEx s e.engineID true = some their ∧ their.lastEngineTime = e.engineTime ∧
      e.engineBoot ≤ their.engineboot := by
  obtain ⟨-,some_id⟩ := search_engineID known
  simp only [getEnginetimeEx,some_id,if_false,known,authenticated,Bool.or_true,if_true]
  split
  · refine ⟨_,rfl,rfl,?_⟩
    split
    · exact Nat.le_succ _
    · exact le_rfl
  · exact ⟨_,rfl,rfl,le_rfl⟩

inductive Checked (s : State) (m : Message) : Except UsmError Unit × State → Prop where
  | refused (error : UsmError) : Checked s m (.error error,s)
  | old (estimated : getEnginetimeEx s m.secEngineID true = some their) (boots : their.engineboot = m.boots_uint)
      (below : their.engineboot ≠ enginebootMax) (older : m.time_uint < their.lastEngineTime)
      (inside : timeDifference their.engineTime m.time_uint ≤ usmTimeWindow) : Checked s m (.ok (),s)
  | newer (estimated : getEnginetimeEx s m.secEngineID true = some their) (boots : their.engineboot ≤ m.boots_uint)
      (below : their.engineboot ≠ enginebootMax)
      (not_older : their.engineboot = m.boots_uint → their.lastEngineTime ≤ m.time_uint) :
      Checked s m (.ok (),setEnginetime s m.secEngineID m.boots_uint m.time_uint m.timeFits m.bootFits true)

theorem check_remote (s : State) (remote : m.secEngineID ≠ self.myID) :
    Checked s m (usmCheckAndUpdateTimeliness self s m) := by
  rw [usmCheckAndUpdateTimeliness]
  split
  · exact .refused _
  cases estimated : getEnginetimeEx s m.secEngineID true with
  | none => exact .refused _
  | some their =>
    dsimp only
    split
    · exact .refused _
    rename_i valid
    rw [not_or,not_lt] at valid
    split
    · rename_i same
      split
      · exact .refused _
      · rename_i inside
        exact .old estimated same.1 valid.1 same.2 (Nat.not_lt.mp inside)
    · rename_i other
      exact .newer estimated valid.2 valid.1 fun boots => Nat.not_lt.mp fun older => other ⟨boots,older⟩

theorem check_local (myself : m.secEngineID = self.myID) : (usmCheckAndUpdateTimeliness self s m).2 = s := by
  rw [usmCheckAndUpdateTimeliness]
  split
  · rfl
  · split
    · rfl
    · rfl

theorem old_message_inside (remote : m.secEngineID ≠ self.myID)
    (known : searchEnginetimeList s.etimelist m.secEngineID = some e) (authenticated : e.authenticatedFlag = true)
    (boots : m.boots_uint = e.engineBoot) (older : m.time_uint < e.engineTime) (accepted : accepts self s m = true) :
    ∃ their, getEnginetimeEx s m.secEngineID true = some their ∧ their.engineboot = m.boots_uint ∧
      timeDifference their.engineTime m.time_uint ≤ usmTimeWindow := by
  obtain ⟨same,-⟩ := search_engineID known
  rw [← same] at known
  obtain ⟨recorded,read,last,boot⟩ := estimate_known known authenticated
  rw [same] at read
  have checked := check_remote s remote
  rw [accepts] at accepted
  generalize usmCheckAndUpdateTimeliness self s m = result at checked accepted
  cases checked with
  | refused error => cases accepted
  | @old their estimated same_boots below earlier inside => exact ⟨their,estimated,same_boots,inside⟩
  | @newer their estimated upper below not_older =>
    obtain rfl : recorded = their := Option.some.inj (read.symm.trans estimated)
    have equal : recorded.engineboot = m.boots_uint := by omega
    omega

def Sound (s : State) : Prop :=
  s.elapsed < 2^31 ∧ ∀ engineID e, searchEnginetimeList s.etimelist engineID = some e → e.lastReceivedEngineTime ≤ s.elapsed

-- The boots of the record are larger, or its clock is not behind one that showed the time of the message.
def Beyond (engineID : List UInt8) (boots time received : Nat) (s : State) : Prop :=
  ∃ e, Current s e ∧ e.engineID = engineID ∧ (boots < e.engineBoot ∨
    (e.engineBoot = boots ∧ time ≤ e.engineTime ∧ time+e.lastReceivedEngineTime ≤ e.engineTime+received))

-- No message that is taken as newer sets the clock of the engine back.
def Steady (engineID : List UInt8) (s : State) : Event → Prop
  | .advance _ => True
  | .receive m => m.secEngineID = engineID → ∀ their, getEnginetimeEx s engineID true = some their →
      m.boots_uint = their.engineboot → their.lastEngineTime ≤ m.time_uint → their.engineTime ≤ m.time_uint

inductive Run (self : Engine) (engineID : List UInt8) : State → State → Prop where
  | done (s : State) : Run self engineID s s
  | step (event : Event) (steady : Steady engineID s event) (unwrapped : (step self s event).elapsed < 2^31)
      (rest : Run self engineID (step self s event) last) : Run self engineID s last

theorem current_set (unwrapped : s.elapsed < 2^31) {m : Message} (some_id : m.secEngineID ≠ []) :
    Current (setEnginetime s m.secEngineID m.boots_uint m.time_uint m.timeFits m.bootFits true)
      ⟨m.secEngineID,m.time_uint,m.boots_uint,localEngineTime s,true,m.timeFits,m.bootFits⟩ := by
  refine ⟨search_set_same s m.timeFits m.bootFits some_id,rfl,?_,?_⟩
  · rw [setEnginetime_elapsed]
    exact Nat.mod_le _ _
  · rw [setEnginetime_elapsed]
    exact unwrapped

theorem estimate_some_id (estimated : getEnginetimeEx s engineID true = some their) : engineID ≠ [] := by
  intro empty
  rw [getEnginetimeEx,if_pos empty] at estimated
  cases estimated

theorem receive_beyond (steady : Steady engineID s (.receive m)) (beyond : Beyond engineID boots time received s) :
    Beyond engineID boots time received (step self s (.receive m)) := by
  obtain ⟨e,current,same,past⟩ := id beyond
  rw [step]
  by_cases here : m.secEngineID = self.myID
  · rw [check_local here]
    exact beyond
  have checked := check_remote s here
  generalize usmCheckAndUpdateTimeliness self s m = result at checked ⊢
  cases checked with
  | refused error | old estimated same_boots below earlier inside => exact beyond
  | @newer their estimated upper below not_older =>
    by_cases mine : m.secEngineID = engineID
    · have some_id := estimate_some_id estimated
      have now : localEngineTime s = s.elapsed := Nat.mod_eq_of_lt current.unwrapped
      refine ⟨_,current_set current.unwrapped some_id,mine,?_⟩
      obtain ⟨found,read,last,clock⟩ := estimate_current current
      rw [same,← mine] at read
      obtain rfl : found = their := Option.some.inj (read.symm.trans estimated)
      rw [mine] at read
      have forward := steady mine found read
      dsimp only
      rcases clock with ⟨same_boots,shown⟩ | rolled
      · rcases past with left_behind | ⟨equal,reached,ahead⟩
        · exact .inl (by omega)
        by_cases same_message : m.boots_uint = found.engineboot
        · have late := not_older same_message.symm
          exact .inr ⟨by omega,by omega,by omega⟩
        · exact .inl (by omega)
      · rcases rolled with top | next
        · exact absurd top below
        · rcases past with left_behind | ⟨equal,-,-⟩
          · exact .inl (by omega)
          · exact .inl (by omega)
    · have kept := search_set_other s m.timeFits m.bootFits (Ne.symm mine)
      refine ⟨e,⟨?_,current.authenticated,?_,?_⟩,same,past⟩
      · rw [same,kept,← same]
        exact current.known
      · rw [setEnginetime_elapsed]
        exact current.past
      · rw [setEnginetime_elapsed]
        exact current.unwrapped

theorem run_beyond (run : Run self engineID s last)
    (beyond : Beyond engineID boots time received s) : Beyond engineID boots time received last := by
  induction run with
  | done s => exact beyond
  | step event steady unwrapped rest ih =>
    cases event with
    | advance seconds =>
      obtain ⟨e,current,same,past⟩ := beyond
      exact ih ⟨e,⟨current.known,current.authenticated,current.past.trans (Nat.le_add_right _ _),unwrapped⟩,same,past⟩
    | receive m => exact ih (receive_beyond steady beyond)

theorem estimate_unknown (known : searchEnginetimeList s.etimelist engineID = some e) (unauthenticated : e.authenticatedFlag = false)
    (estimated : getEnginetimeEx s engineID true = some their) : their.lastEngineTime = 0 := by
  obtain ⟨-,some_id⟩ := search_engineID known
  simp only [getEnginetimeEx,some_id,if_false,known,unauthenticated,Bool.not_true,Bool.or_false,Bool.false_eq_true] at estimated
  split at estimated
  · cases estimated
    rfl
  · cases estimated
    rfl

theorem accepted_beyond (remote : m.secEngineID ≠ self.myID) (sound : Sound s) (accepted : accepts self s m = true)
    (kept : ∃ e, searchEnginetimeList (step self s (.receive m)).etimelist m.secEngineID = some e ∧ e.engineBoot = m.boots_uint) :
    Beyond m.secEngineID m.boots_uint m.time_uint s.elapsed (step self s (.receive m)) := by
  obtain ⟨e,known,same_boots⟩ := kept
  rw [step] at known ⊢
  have checked := check_remote s remote
  rw [accepts] at accepted
  generalize usmCheckAndUpdateTimeliness self s m = result at checked accepted known ⊢
  cases checked with
  | refused error => cases accepted
  | @old their estimated boots below older inside =>
    obtain ⟨same,-⟩ := search_engineID known
    have past := sound.2 _ e known
    cases flag : e.authenticatedFlag with
    | false =>
      have zero := estimate_unknown known flag estimated
      omega
    | true =>
      have current : Current s e := ⟨by rw [same]; exact known,flag,past,sound.1⟩
      obtain ⟨found,read,last,-⟩ := estimate_current current
      rw [same] at read
      obtain rfl : found = their := Option.some.inj (read.symm.trans estimated)
      exact ⟨e,current,same,.inr ⟨same_boots,by omega,by omega⟩⟩
  | @newer their estimated upper below not_older =>
    have now : localEngineTime s = s.elapsed := Nat.mod_eq_of_lt sound.1
    refine ⟨_,current_set sound.1 (estimate_some_id estimated),rfl,.inr ⟨rfl,le_rfl,?_⟩⟩
    dsimp only
    omega

theorem beyond_refused (remote : m.secEngineID ≠ self.myID)
    (beyond : Beyond m.secEngineID m.boots_uint m.time_uint received s) (late : received+usmTimeWindow < s.elapsed)
    (replaced : ∀ e, searchEnginetimeList s.etimelist m.secEngineID = some e →
      ¬ (e.engineBoot = m.boots_uint ∧ e.engineTime = m.time_uint)) : accepts self s m = false := by
  obtain ⟨e,current,same,past⟩ := beyond
  have latest := replaced e (by rw [← same]; exact current.known)
  obtain ⟨recorded,read,last,clock⟩ := estimate_current current
  rw [same] at read
  have checked := check_remote s remote
  rw [accepts]
  generalize usmCheckAndUpdateTimeliness self s m = result at checked ⊢
  cases checked with
  | refused error => rfl
  | @old their estimated boots below older inside =>
    obtain rfl : recorded = their := Option.some.inj (read.symm.trans estimated)
    rw [timeDifference] at inside
    rcases clock with ⟨same_boots,shown⟩ | top | next
    · split at inside
      · omega
      · omega
    · exact absurd top below
    · omega
  | @newer their estimated upper below not_older =>
    obtain rfl : recorded = their := Option.some.inj (read.symm.trans estimated)
    rcases clock with ⟨same_boots,shown⟩ | top | next
    · rcases past with left_behind | ⟨equal,reached,ahead⟩
      · omega
      · exact absurd ⟨equal,by omega⟩ latest
    · exact absurd top below
    · omega

theorem timely_messages (self : Engine) (m : Message) (remote : m.secEngineID ≠ self.myID) :
    (∀ s e, searchEnginetimeList s.etimelist m.secEngineID = some e → e.authenticatedFlag = true →
      m.boots_uint = e.engineBoot → m.time_uint < e.engineTime → accepts self s m = true →
      ∃ their, getEnginetimeEx s m.secEngineID true = some their ∧ their.engineboot = m.boots_uint ∧
        timeDifference their.engineTime m.time_uint ≤ usmTimeWindow) ∧
    (∀ s last, Sound s → accepts self s m = true →
      (∃ e, searchEnginetimeList (step self s (.receive m)).etimelist m.secEngineID = some e ∧ e.engineBoot = m.boots_uint) →
      Run self m.secEngineID (step self s (.receive m)) last → s.elapsed+usmTimeWindow < last.elapsed →
      (∀ e, searchEnginetimeList last.etimelist m.secEngineID = some e →
        ¬ (e.engineBoot = m.boots_uint ∧ e.engineTime = m.time_uint)) →
      accepts self last m = false) := by
  constructor
  · intro s e known authenticated boots older accepted
    exact old_message_inside remote known authenticated boots older accepted
  · intro s last sound accepted kept run late replaced
    exact beyond_refused remote (run_beyond run (accepted_beyond remote sound accepted kept)) late replaced

def sampleEngine : Engine := ⟨[1],0⟩
def sampleMessage (time : Nat) (fits : time ≤ enginetimeMax) : Message := ⟨[2],1,time,fits,by decide⟩
def sampleStart : State := ⟨0,[⟨[2],99,1,0,true,by decide,by decide⟩]⟩
def sampleFirst : State := step sampleEngine sampleStart (.receive (sampleMessage 100 (by decide)))
def sampleWaited : State := step sampleEngine sampleFirst (.advance 1000)
def sampleSetBack : State := step sampleEngine sampleWaited (.receive (sampleMessage 101 (by decide)))

-- The message with the latest time is accepted 1000 seconds later, and an older one is
-- once a delayed message has set the clock back.
theorem replayed_message_accepted : accepts sampleEngine sampleStart (sampleMessage 100 (by decide)) = true ∧
    getEnginetimeEx sampleWaited [2] true = some ⟨1,1100,100⟩ ∧
    accepts sampleEngine sampleWaited (sampleMessage 100 (by decide)) = true ∧
    accepts sampleEngine sampleWaited (sampleMessage 101 (by decide)) = true ∧
    getEnginetimeEx sampleSetBack [2] true = some ⟨1,101,101⟩ ∧
    accepts sampleEngine sampleSetBack (sampleMessage 100 (by decide)) = true := by
  decide +kernel

def samplePrompt : State := step sampleEngine sampleFirst (.advance 10)
def sampleSecond : State := step sampleEngine samplePrompt (.receive (sampleMessage 120 (by decide)))
def sampleLate : State := step sampleEngine sampleSecond (.advance 141)

theorem samplePrompt_estimate : getEnginetimeEx samplePrompt [2] true = some ⟨1,110,100⟩ := by decide +kernel

theorem sampleStart_sound : Sound sampleStart := by
  refine ⟨by decide,fun engineID e known => ?_⟩
  rw [searchEnginetimeList] at known
  split at known
  · cases known
  have mem := mem_of_find?_eq_some known
  simp only [sampleStart,mem_singleton] at mem
  subst mem
  exact le_refl 0

theorem timely_messages_sample : (∃ their, getEnginetimeEx sampleSecond [2] true = some their ∧ their.engineboot = 1 ∧
      timeDifference their.engineTime 100 ≤ usmTimeWindow) ∧
    accepts sampleEngine sampleLate (sampleMessage 100 (by decide)) = false := by
  have timely := timely_messages sampleEngine (sampleMessage 100 (by decide)) (by decide)
  constructor
  · exact timely.1 sampleSecond ⟨[2],120,1,10,true,by decide,by decide⟩ (by decide +kernel) rfl rfl (by decide)
      (by decide +kernel)
  refine timely.2 sampleStart sampleLate sampleStart_sound (by decide +kernel)
    ⟨⟨[2],100,1,0,true,by decide,by decide⟩,by decide +kernel,rfl⟩ ?_ (by decide +kernel) ?_
  · refine .step (.advance 10) trivial (by decide +kernel) (.step (.receive (sampleMessage 120 (by decide))) ?_
      (by decide +kernel) (.step (.advance 141) trivial (by decide +kernel) (.done _)))
    intro _ their read boots late
    cases samplePrompt_estimate.symm.trans read
    decide
  · intro e known
    have stored : searchEnginetimeList sampleLate.etimelist [2] = some ⟨[2],120,1,10,true,by decide,by decide⟩ := by
      decide +kernel
    cases stored.symm.trans known
    decide

-- The table with its hash lists; an index is what hash_engineID returns.
abbrev Etimelist (n : Nat) := Fin n → List Enginetime

structure SetCall where
  now : Nat
  engineID : List UInt8
  engineboot : Nat
  engine_time : Nat
  timeFits : engine_time ≤ enginetimeMax
  bootFits : engineboot ≤ enginebootMax
  authenticated : Bool

section
variable (hash : List UInt8 → Fin n) (etimelist : Etimelist n)

def setCall (call : SetCall) : Etimelist n :=
  let s : State := ⟨call.now,etimelist (hash call.engineID)⟩
  Function.update etimelist (hash call.engineID)
    (setEnginetime s call.engineID call.engineboot call.engine_time call.timeFits call.bootFits call.authenticated).etimelist

def setCalls (calls : List SetCall) : Etimelist n := calls.foldl (setCall hash) etimelist

def getEnginetime (now : Nat) (engineID : List UInt8) (authenticated : Bool) : Option (Nat × Nat) :=
  (getEnginetimeEx ⟨now,etimelist (hash engineID)⟩ engineID authenticated).map fun e => (e.engineboot,e.engineTime)

def freeRecords : List Enginetime → List Enginetime
  | [] => []
  | _ :: next => freeRecords next

def freeEnginetime (engineID : List UInt8) : Etimelist n :=
  if engineID = [] then etimelist
  else Function.update etimelist (hash engineID) (freeRecords (etimelist (hash engineID)))

theorem freeRecords_nil : freeRecords records = [] := by
  induction records with
  | nil => rfl
  | cons first rest ih => exact ih

theorem search_isSome (records : List Enginetime) (engineID : List UInt8) :
    (searchEnginetimeList records engineID).isSome ↔ engineID ≠ [] ∧ engineID ∈ records.map (·.engineID) := by
  rw [searchEnginetimeList]
  split
  · simp_all
  · simp_all

theorem store_engineIDs : (store e records).map (·.engineID) = records.map (·.engineID) := by
  induction records with
  | nil => rfl
  | cons first rest ih =>
    rw [store]
    split
    · rename_i same
      simp [same]
    · simp [ih]

theorem set_engineIDs :
    other ∈ (setEnginetime s engineID engineboot engine_time timeFits bootFits authenticated).etimelist.map (·.engineID) ↔
      other ∈ s.etimelist.map (·.engineID) ∨ other = engineID ∧ engineID ≠ [] := by
  rw [setEnginetime]
  split
  · simp_all
  rename_i some_id
  have known := search_isSome s.etimelist engineID
  dsimp only
  split <;> split
  all_goals simp only [store_engineIDs,map_cons,mem_cons]
  all_goals grind

theorem getEnginetime_isSome (now : Nat) (engineID : List UInt8) (authenticated : Bool) :
    (getEnginetime hash etimelist now engineID authenticated).isSome ↔
      engineID ≠ [] ∧ engineID ∈ (etimelist (hash engineID)).map (·.engineID) := by
  rw [getEnginetime,Option.isSome_map,← search_isSome,getEnginetimeEx]
  split
  · simp_all [searchEnginetimeList]
  cases searchEnginetimeList (etimelist (hash engineID)) engineID with
  | none => rfl
  | some e =>
    dsimp only
    repeat' split
    all_goals rfl

theorem setCalls_engineIDs (some_id : engineID ≠ []) :
    engineID ∈ (setCalls hash etimelist calls (hash engineID)).map (·.engineID) ↔
      engineID ∈ (etimelist (hash engineID)).map (·.engineID) ∨ engineID ∈ calls.map (·.engineID) := by
  induction calls generalizing etimelist with
  | nil => simp [setCalls]
  | cons call rest ih =>
    have step : engineID ∈ (setCall hash etimelist call (hash engineID)).map (·.engineID) ↔
        engineID ∈ (etimelist (hash engineID)).map (·.engineID) ∨ engineID = call.engineID := by
      rw [setCall]
      by_cases same : hash engineID = hash call.engineID
      · rw [same,Function.update_self,set_engineIDs]
        grind
      · rw [Function.update_of_ne same]
        grind
    rw [setCalls,foldl_cons,← setCalls,ih,step,map_cons,mem_cons,or_assoc]

end

-- All records of the list are freed, not the one of the engine.
theorem free_keeps_other (hash : List UInt8 → Fin n) (calls : List SetCall) (a b : List UInt8) (now : Nat)
    (authenticated : Bool) : getEnginetime hash (freeEnginetime hash (setCalls hash (fun _ => []) calls) a) now b authenticated =
        getEnginetime hash (setCalls hash (fun _ => []) calls) now b authenticated ↔
      a = [] ∨ hash a ≠ hash b ∨ b = [] ∨ b ∉ calls.map (·.engineID) := by
  have known := getEnginetime_isSome hash (setCalls hash (fun _ => []) calls) now b authenticated
  have freed := getEnginetime_isSome hash (freeEnginetime hash (setCalls hash (fun _ => []) calls) a) now b authenticated
  by_cases none_freed : a = []
  · simp [freeEnginetime,none_freed]
  rw [freeEnginetime,if_neg none_freed,freeRecords_nil] at freed ⊢
  by_cases same : hash a = hash b
  · rw [same,Function.update_self] at freed
    have gone := Option.not_isSome_iff_eq_none.mp (mt freed.mp (by simp))
    rw [same,gone,eq_comm,← Option.not_isSome_iff_eq_none,known]
    by_cases some_id : b = []
    · simp [some_id]
    · simp [setCalls_engineIDs hash _ some_id,none_freed,some_id]
  · simp [getEnginetime,Function.update_of_ne (Ne.symm same),same]

theorem free_loses_other : getEnginetime (fun _ => (0 : Fin 1)) (setCalls (fun _ => 0) (fun _ => [])
      [⟨0,[2],1,100,by decide,by decide,true⟩]) 0 [2] true = some (1,100) ∧
    getEnginetime (fun _ => (0 : Fin 1)) (freeEnginetime (fun _ => 0) (setCalls (fun _ => 0) (fun _ => [])
      [⟨0,[2],1,100,by decide,by decide,true⟩]) [1]) 0 [2] true = none := by
  decide +kernel

-- The authenticated record of an engine is not below the given boots and time.
def Reached (engineID : List UInt8) (boots time : Nat) (s : State) : Prop :=
  ∃ e, searchEnginetimeList s.etimelist engineID = some e ∧ e.authenticatedFlag = true ∧
    (boots < e.engineBoot ∨ boots = e.engineBoot ∧ time ≤ e.engineTime)

theorem step_reached (event : Event) (reached : Reached engineID boots time s) :
    Reached engineID boots time (step self s event) := by
  cases event with
  | advance seconds => exact reached
  | receive m =>
    rw [step]
    by_cases here : m.secEngineID = self.myID
    · rw [check_local here]
      exact reached
    have checked := check_remote s here
    generalize usmCheckAndUpdateTimeliness self s m = result at checked ⊢
    cases checked with
    | refused | old => exact reached
    | newer estimated upper below not_older =>
      obtain ⟨e,known,authenticated,past⟩ := reached
      obtain ⟨rfl,some_id⟩ := search_engineID known
      by_cases mine : m.secEngineID = e.engineID
      · obtain ⟨their,read,last,boot⟩ := estimate_known known authenticated
        rw [mine,read] at estimated
        cases estimated
        rw [← mine]
        refine ⟨_,search_set_same s m.timeFits m.bootFits (mine ▸ some_id),rfl,?_⟩
        dsimp only
        omega
      · exact ⟨e,(search_set_other s m.timeFits m.bootFits (Ne.symm mine)).trans known,authenticated,past⟩

theorem records_never_return (self : Engine) (events : List Event) (known : searchEnginetimeList s.etimelist engineID = some e)
    (authenticated : e.authenticatedFlag = true) :
    Reached engineID e.engineBoot e.engineTime (events.foldl (step self) s) ∧
      ∀ m : Message, m.secEngineID = engineID → engineID ≠ self.myID → m.boots_uint < e.engineBoot →
        accepts self (events.foldl (step self) s) m = false := by
  have begun : Reached engineID e.engineBoot e.engineTime s := ⟨e,known,authenticated,.inr ⟨rfl,le_rfl⟩⟩
  have reached := events.foldlRecOn (step self) begun fun _ reached event _ => step_reached event reached
  refine ⟨reached,fun m mine remote lower => ?_⟩
  obtain ⟨later,known,authenticated,past⟩ := reached
  obtain ⟨rfl,-⟩ := search_engineID known
  obtain ⟨their,read,-,boot⟩ := estimate_known known authenticated
  have checked := check_remote (events.foldl (step self) s) (mine ▸ remote)
  rw [accepts]
  generalize usmCheckAndUpdateTimeliness self _ m = result at checked ⊢
  cases checked with
  | refused error => rfl
  | old estimated boots | newer estimated boots =>
    rw [mine,read] at estimated
    cases estimated
    omega

theorem earlier_boots_refused : accepts sampleEngine sampleWaited ⟨[2],0,5,by decide,by decide⟩ = false :=
  (records_never_return (s := sampleFirst) sampleEngine [.advance 1000] rfl rfl).2 _ rfl (by decide) (by decide)

end NetSnmp.UsmTimeliness
