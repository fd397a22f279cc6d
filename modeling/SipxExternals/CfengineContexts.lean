import Mathlib.Data.List.Nodup
import SipxExternals.CfengineAccess

namespace Cfengine.Contexts
open Cfengine.Access List

-- A persistent context; the database has one for each name.
structure State where
  key : List Char
  expires : Int

structure Store where
  states : List State
  distinct : (states.map State.key).Nodup

structure Grant where
  access : Bool
  maproot : Bool

section
variable (world : World Item) (conn : Connection) (encrypt : Bool)

def admitContext (name : List Char) : List (Auth Item) → Grant → Grant
  | [],grant => grant
  | ap :: rest,grant =>
    if world.fullTextMatch ap.path name = false then
      if ap.classpattern = false then admitContext name rest { grant with access := false }
      else if encrypt = false ∧ ap.encrypt = true then { grant with access := false }
      else admitContext name rest ⟨grant.access || world.lists conn ap.accesslist,
        grant.maproot || world.lists conn ap.maproot⟩
    else admitContext name rest grant

def denyContext (name : List Char) : List (Auth Item) → Bool → Bool
  | [],access => access
  | ap :: rest,access =>
    if ap.path = name ∧ world.lists conn ap.accesslist = true then false
    else denyContext name rest access

-- The flag goes from one candidate to the next.
def contextLoop (vAdmit vDeny : List (Auth Item)) : List (List Char) → Grant → List (List Char) × Grant
  | [],grant => ([],grant)
  | name :: rest,grant =>
    let admitted := admitContext world conn encrypt name vAdmit grant
    let access := denyContext world conn name vDeny admitted.access
    let (names,last) := contextLoop vAdmit vDeny rest { admitted with access := access }
    (if access then name :: names else names,last)

def candidates (clientRegex : List Char) (now : Int) (store : Store) : List (List Char) :=
  (store.states.filter fun state =>
    decide (now ≤ state.expires) && world.fullTextMatch clientRegex state.key).map State.key

def contextAccessControl (clientRegex : List Char) (now : Int) (store : Option Store)
    (vAdmit vDeny : List (Auth Item)) : List (List Char) × Connection :=
  match store with
  | none => ([],conn)
  | some store =>
    let (names,grant) := contextLoop world conn encrypt vAdmit vDeny
      (candidates world clientRegex now store) ⟨false,conn.maproot⟩
    (names,{ conn with maproot := grant.maproot })

def Clears (name : List Char) (ap : Auth Item) : Prop :=
  world.fullTextMatch ap.path name = false ∧ ap.classpattern = false

def Stops (name : List Char) (ap : Auth Item) : Prop :=
  world.fullTextMatch ap.path name = false ∧ ap.classpattern = true ∧ encrypt = false ∧ ap.encrypt = true

def Sets (name : List Char) (ap : Auth Item) : Prop :=
  world.fullTextMatch ap.path name = false ∧ ap.classpattern = true ∧
    (encrypt = true ∨ ap.encrypt = false) ∧ world.lists conn ap.accesslist = true

def Denied (name : List Char) (vDeny : List (Auth Item)) : Prop :=
  ∃ ap ∈ vDeny, ap.path = name ∧ world.lists conn ap.accesslist = true

-- The admit rules set the flag for a name: one that does not match it sets it, and
-- none behind that clears it again.
def SetFor (name : List Char) (vAdmit : List (Auth Item)) : Prop :=
  (∀ ap ∈ vAdmit, ¬ Stops world encrypt name ap) ∧
    ∃ before ap after, vAdmit = before++ap :: after ∧ Sets world conn encrypt name ap ∧
      ∀ later ∈ after, ¬ Clears world name later

def KeptFor (name : List Char) (vAdmit : List (Auth Item)) : Prop :=
  ∀ ap ∈ vAdmit, ¬ Clears world name ap ∧ ¬ Stops world encrypt name ap ∧ ¬ Sets world conn encrypt name ap

theorem setFor_cons : SetFor world conn encrypt name (ap :: rest) ↔ ¬ Stops world encrypt name ap ∧
        (SetFor world conn encrypt name rest ∨
          (Sets world conn encrypt name ap ∧ (∀ later ∈ rest, ¬ Stops world encrypt name later) ∧
            ∀ later ∈ rest, ¬ Clears world name later)) := by
  constructor
  · rintro ⟨going,before,rule,after,split_,sets,kept⟩
    refine ⟨going ap (.head _),?_⟩
    have others : ∀ later ∈ rest, ¬ Stops world encrypt name later :=
      (forall_mem_cons.mp going).2
    cases before with
    | nil =>
      cases split_
      exact .inr ⟨sets,others,kept⟩
    | cons first before =>
      cases split_
      exact .inl ⟨others,before,rule,after,rfl,sets,kept⟩
  rintro ⟨going,⟨others,before,rule,after,rfl,sets,kept⟩ | ⟨sets,others,kept⟩⟩
  · refine ⟨?_,ap :: before,rule,after,rfl,sets,kept⟩
    exact forall_mem_cons.mpr ⟨going,others⟩
  refine ⟨?_,[],ap,rest,rfl,sets,kept⟩
  exact forall_mem_cons.mpr ⟨going,others⟩

theorem set_or_kept
    (going : ∀ ap ∈ rules, ¬ Stops world encrypt name ap) (kept : ∀ ap ∈ rules, ¬ Clears world name ap) :
    SetFor world conn encrypt name rules ∨ KeptFor world conn encrypt name rules := by
  by_cases some_ : ∃ ap ∈ rules, Sets world conn encrypt name ap
  · obtain ⟨ap,mem,sets⟩ := some_
    obtain ⟨before,after,rfl⟩ := append_of_mem mem
    exact .inl ⟨going,before,ap,after,rfl,sets,fun later inside => kept later (by simp [inside])⟩
  · exact .inr fun ap mem => ⟨kept ap mem,going ap mem,fun sets => some_ ⟨ap,mem,sets⟩⟩

theorem admitContext_access : (admitContext world conn encrypt name vAdmit grant).access = true ↔
      SetFor world conn encrypt name vAdmit ∨ (KeptFor world conn encrypt name vAdmit ∧ grant.access = true) := by
  induction vAdmit generalizing grant with
  | nil =>
    have unset : ¬ SetFor world conn encrypt name [] := by
      rintro ⟨_,before,ap,after,impossible,_⟩
      simp at impossible
    simp [admitContext,unset,KeptFor]
  | cons ap rest ih =>
    rw [setFor_cons]
    have keptCons : KeptFor world conn encrypt name (ap :: rest) ↔
        (¬ Clears world name ap ∧ ¬ Stops world encrypt name ap ∧ ¬ Sets world conn encrypt name ap) ∧
          KeptFor world conn encrypt name rest := forall_mem_cons
    rw [keptCons]
    unfold admitContext
    by_cases matched : world.fullTextMatch ap.path name = false
    · rw [if_pos matched]
      by_cases plain : ap.classpattern = false
      · have clears : Clears world name ap := ⟨matched,plain⟩
        have going : ¬ Stops world encrypt name ap := by simp [Stops,plain]
        have unset : ¬ Sets world conn encrypt name ap := by simp [Sets,plain]
        rw [if_pos plain,ih]
        simp [clears,going,unset]
      rw [if_neg plain]
      have pattern : ap.classpattern = true := by simpa using plain
      have kept : ¬ Clears world name ap := by simp [Clears,pattern]
      by_cases unmet : encrypt = false ∧ ap.encrypt = true
      · have stops : Stops world encrypt name ap := ⟨matched,pattern,unmet⟩
        rw [if_pos unmet]
        simp [stops]
      have going : ¬ Stops world encrypt name ap := fun stops => unmet stops.2.2
      have met : encrypt = true ∨ ap.encrypt = false := by
        cases encrypt <;> cases known : ap.encrypt <;> simp_all
      rw [if_neg unmet,ih]
      by_cases listed : world.lists conn ap.accesslist = true
      · have sets : Sets world conn encrypt name ap := ⟨matched,pattern,met,listed⟩
        simp only [listed,Bool.or_true,and_true,going,not_false_eq_true,sets,true_and,kept,
          not_true_eq_false,and_false,false_and,or_false]
        constructor
        · rintro (set | keeps)
          · exact .inl set
          · exact .inr ⟨fun later mem => (keeps later mem).2.1,fun later mem => (keeps later mem).1⟩
        · rintro (set | ⟨others,keeps⟩)
          · exact .inl set
          · exact set_or_kept world conn encrypt others keeps
      · have unset : ¬ Sets world conn encrypt name ap := fun sets => listed sets.2.2.2
        simp [listed,going,unset,kept]
    · have skipped : ¬ Clears world name ap ∧ ¬ Stops world encrypt name ap ∧ ¬ Sets world conn encrypt name ap :=
        ⟨fun clears => matched clears.1,fun stops => matched stops.1,fun sets => matched sets.1⟩
      rw [if_neg matched,ih]
      simp [skipped.1,skipped.2.1,skipped.2.2]

theorem denyContext_access : denyContext world conn name vDeny access = true ↔
      access = true ∧ ¬ Denied world conn name vDeny := by
  induction vDeny with
  | nil => simp [denyContext,Denied]
  | cons ap rest ih =>
    have deniedCons : Denied world conn name (ap :: rest) ↔
        (ap.path = name ∧ world.lists conn ap.accesslist = true) ∨ Denied world conn name rest := by
      simp [Denied]
    rw [deniedCons]
    unfold denyContext
    by_cases denies : ap.path = name ∧ world.lists conn ap.accesslist = true
    · simp [denies]
    · rw [if_neg denies,ih]
      simp [denies]

def Given (vAdmit vDeny : List (Auth Item)) (name : List Char) : Prop :=
  SetFor world conn encrypt name vAdmit ∧ ¬ Denied world conn name vDeny

def Carried (vAdmit vDeny : List (Auth Item)) (name : List Char) : Prop :=
  KeptFor world conn encrypt name vAdmit ∧ ¬ Denied world conn name vDeny

theorem carried_ungiven (carried : Carried world conn encrypt vAdmit vDeny name) :
    ¬ Given world conn encrypt vAdmit vDeny name := by
  rintro ⟨⟨_,before,ap,after,rfl,sets,_⟩,_⟩
  exact (carried.1 ap (by simp)).2.2 sets

section
variable (vAdmit vDeny : List (Auth Item))
include vAdmit vDeny

theorem candidate_access (name : List Char) (grant : Grant) :
    denyContext world conn name vDeny (admitContext world conn encrypt name vAdmit grant).access = true ↔
      Given world conn encrypt vAdmit vDeny name ∨
        (Carried world conn encrypt vAdmit vDeny name ∧ grant.access = true) := by
  rw [denyContext_access,admitContext_access,Given,Carried]
  tauto

theorem contextLoop_own (names : List (List Char)) (grant : Grant)
    (own : ∀ name ∈ names, ¬ Carried world conn encrypt vAdmit vDeny name) (name : List Char) :
    name ∈ (contextLoop world conn encrypt vAdmit vDeny names grant).1 ↔
      name ∈ names ∧ Given world conn encrypt vAdmit vDeny name := by
  induction names generalizing grant with
  | nil => simp [contextLoop]
  | cons first rest ih =>
    obtain ⟨unkept,others⟩ := forall_mem_cons.mp own
    have decided := candidate_access world conn encrypt vAdmit vDeny first grant
    simp only [unkept,false_and,or_false] at decided
    simp only [contextLoop]
    by_cases given : Given world conn encrypt vAdmit vDeny first
    · rw [if_pos (decided.mpr given),mem_cons,ih _ others,mem_cons]
      constructor
      · rintro (rfl | ⟨mem,known⟩)
        · exact ⟨.inl rfl,given⟩
        · exact ⟨.inr mem,known⟩
      · rintro ⟨rfl | mem,known⟩
        · exact .inl rfl
        · exact .inr ⟨mem,known⟩
    · rw [if_neg (fun access => given (decided.mp access)),ih _ others,mem_cons]
      constructor
      · rintro ⟨mem,known⟩
        exact ⟨.inr mem,known⟩
      · rintro ⟨rfl | mem,known⟩
        · exact absurd known given
        · exact ⟨mem,known⟩

theorem contextLoop_none (names : List (List Char)) (grant : Grant)
    (none_ : ∀ name ∈ names, ¬ Given world conn encrypt vAdmit vDeny name) (closed : grant.access = false) :
    (contextLoop world conn encrypt vAdmit vDeny names grant).1 = [] := by
  induction names generalizing grant with
  | nil => rfl
  | cons first rest ih =>
    obtain ⟨ungiven,others⟩ := forall_mem_cons.mp none_
    have refused : ¬ denyContext world conn first vDeny
        (admitContext world conn encrypt first vAdmit grant).access = true := by
      rw [candidate_access]
      simp [ungiven,closed]
    simp only [contextLoop]
    rw [if_neg refused]
    exact ih _ others (by simpa using refused)

end

theorem candidate_state (stored : state ∈ store.states) : state.key ∈ candidates world clientRegex now store ↔
      now ≤ state.expires ∧ world.fullTextMatch clientRegex state.key = true := by
  unfold candidates
  simp only [mem_map,mem_filter,Bool.and_eq_true,decide_eq_true_eq]
  constructor
  · rintro ⟨other,⟨mem,live,matched⟩,same⟩
    cases inj_on_of_nodup_map store.distinct mem stored same
    exact ⟨live,matched⟩
  · rintro ⟨live,matched⟩
    exact ⟨state,⟨stored,live,matched⟩,rfl⟩

theorem candidate_matches (mem : name ∈ candidates world clientRegex now store) :
    world.fullTextMatch clientRegex name = true := by
  unfold candidates at mem
  simp only [mem_map,mem_filter,Bool.and_eq_true] at mem
  obtain ⟨state,⟨_,_,matched⟩,rfl⟩ := mem
  exact matched

end

section
variable (world : World Item) (conn : Connection) (encrypt : Bool) (clientRegex : List Char) (now : Int)
  (vAdmit vDeny : List (Auth Item))

def returned (store : Store) : List (List Char) :=
  (contextAccessControl world conn encrypt clientRegex now (some store) vAdmit vDeny).1

def Matched (name : List Char) : Prop :=
  ∃ ap ∈ vAdmit, world.fullTextMatch ap.path name = true ∧ ap.classpattern = true ∧
    (encrypt = true ∨ ap.encrypt = false) ∧ world.lists conn ap.accesslist = true

theorem returned_own (own : ∀ name, world.fullTextMatch clientRegex name = true →
      ¬ Carried world conn encrypt vAdmit vDeny name) (store : Store) (name : List Char) :
    name ∈ returned world conn encrypt clientRegex now vAdmit vDeny store ↔
      name ∈ candidates world clientRegex now store ∧ Given world conn encrypt vAdmit vDeny name :=
  contextLoop_own world conn encrypt vAdmit vDeny _ _
    (fun name mem => own name (candidate_matches world mem)) name

theorem returned_none (none_ : ∀ name, world.fullTextMatch clientRegex name = true →
      ¬ Given world conn encrypt vAdmit vDeny name) (store : Store) :
    returned world conn encrypt clientRegex now vAdmit vDeny store = [] :=
  contextLoop_none world conn encrypt vAdmit vDeny _ _
    (fun name mem => none_ name (candidate_matches world mem)) rfl

def alone (name : List Char) : Store := ⟨[⟨name,now⟩],List.nodup_singleton _⟩

def together {first second : List Char} (differ : first ≠ second) : Store :=
  ⟨[⟨first,now⟩,⟨second,now⟩],by simpa using differ⟩

theorem returned_alone (matched : world.fullTextMatch clientRegex name = true) :
    name ∈ returned world conn encrypt clientRegex now vAdmit vDeny (alone now name) ↔
      Given world conn encrypt vAdmit vDeny name := by
  have decided := candidate_access world conn encrypt vAdmit vDeny name ⟨false,conn.maproot⟩
  by_cases given : Given world conn encrypt vAdmit vDeny name
  · simp [returned,contextAccessControl,candidates,alone,matched,contextLoop,decided,given]
  · simp [returned,contextAccessControl,candidates,alone,matched,contextLoop,decided,given]

theorem returned_together (differ : first ≠ second) (matchedFirst : world.fullTextMatch clientRegex first = true)
    (matchedSecond : world.fullTextMatch clientRegex second = true)
    (given : Given world conn encrypt vAdmit vDeny first) (carried : Carried world conn encrypt vAdmit vDeny second) :
    second ∈ returned world conn encrypt clientRegex now vAdmit vDeny (together now differ) := by
  have set := (candidate_access world conn encrypt vAdmit vDeny first ⟨false,conn.maproot⟩).mpr (.inl given)
  have kept := fun maproot =>
    (candidate_access world conn encrypt vAdmit vDeny second ⟨true,maproot⟩).mpr (.inr ⟨carried,rfl⟩)
  simp [returned,contextAccessControl,candidates,together,matchedFirst,matchedSecond,contextLoop,set,kept]

-- Rules that do not match a name set the flag only for names that a rule for them admits, and for all names alike.
theorem contexts_decided : ((∀ store, ∀ name ∈ returned world conn encrypt clientRegex now vAdmit vDeny store,
        Matched world conn encrypt vAdmit name ∧ ¬ Denied world conn name vDeny) ∧
      ∀ store other state, state ∈ store.states → state ∈ other.states →
        (state.key ∈ returned world conn encrypt clientRegex now vAdmit vDeny store ↔
          state.key ∈ returned world conn encrypt clientRegex now vAdmit vDeny other)) ↔
    ((∀ name, world.fullTextMatch clientRegex name = true →
        Given world conn encrypt vAdmit vDeny name → Matched world conn encrypt vAdmit name) ∧
      ∀ first second, world.fullTextMatch clientRegex first = true → world.fullTextMatch clientRegex second = true →
          Given world conn encrypt vAdmit vDeny first → ¬ Carried world conn encrypt vAdmit vDeny second) := by
  constructor
  · rintro ⟨admitted,independent⟩
    constructor
    · intro name matched given
      exact (admitted (alone now name) name
        ((returned_alone world conn encrypt clientRegex now vAdmit vDeny matched).mpr given)).1
    intro first second matchedFirst matchedSecond given carried
    have ungiven := carried_ungiven world conn encrypt carried
    have differ : first ≠ second := by
      rintro rfl
      exact ungiven given
    have both := returned_together world conn encrypt clientRegex now vAdmit vDeny differ
      matchedFirst matchedSecond given carried
    have same := independent (together now differ) (alone now second) ⟨second,now⟩
      (by simp [together]) (by simp [alone])
    exact ungiven ((returned_alone world conn encrypt clientRegex now vAdmit vDeny matchedSecond).mp (same.mp both))
  rintro ⟨matches_,apart⟩
  by_cases some_ : ∃ name, world.fullTextMatch clientRegex name = true ∧ Given world conn encrypt vAdmit vDeny name
  · obtain ⟨first,matchedFirst,givenFirst⟩ := some_
    have own := returned_own world conn encrypt clientRegex now vAdmit vDeny
      fun name matched => apart first name matchedFirst matched givenFirst
    constructor
    · intro store name member
      obtain ⟨candidate,given⟩ := (own store name).mp member
      exact ⟨matches_ name (candidate_matches world candidate) given,given.2⟩
    · intro store other state stored stored'
      rw [own,own,candidate_state world stored,candidate_state world stored']
  · have none_ := returned_none world conn encrypt clientRegex now vAdmit vDeny
      fun name matched given => some_ ⟨name,matched,given⟩
    constructor
    · intro store name member
      rw [none_ store] at member
      cases member
    · intro store other state _ _
      rw [none_ store,none_ other]

end

-- A rule for the context y admits the client; what it gets to see is the context x.
def rulesForY : Auth String := ⟨['y'],["client"],[],false,false,true,by decide⟩

theorem unmatched_returned : ['x'] ∈ returned linked client false ['x'] 5 [rulesForY] [] (alone 5 ['x']) ∧
      ¬ Matched linked client false [rulesForY] ['x'] := by
  refine ⟨by decide,?_⟩
  rintro ⟨ap,member,matched,_⟩
  cases mem_singleton.mp member
  exact absurd matched (by decide)

end Cfengine.Contexts
