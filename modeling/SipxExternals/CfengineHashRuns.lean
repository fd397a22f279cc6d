import SipxExternals.CfengineHashes

namespace Cfengine.Hashes
open Foundations.OpenAddressing List

section
variable {getHash : String → Fin cfHashtablesize} {buckets : Buckets ρ τ} {m : Mapping ρ τ}

theorem empty_holds (getHash : String → Fin cfHashtablesize) : Holds getHash (fun _ => (.null : Bucket ρ τ)) [] := by
  have none : ∀ i item, cells (fun _ => (.null : Bucket ρ τ)) i ≠ some item := by
    intro i item
    simp [cells]
  refine ⟨by simp,⟨fun i item here => absurd here (none i item),fun i j item other here => absurd here (none i item)⟩,?_⟩
  simp [contents,cells]

theorem freeBucket_stop (absent : Absent CfAssoc.lval (cells buckets) element) (i : Fin cfHashtablesize)
    (clean : ∀ i, buckets i ≠ .deleted) : freeBucket buckets i = stop CfAssoc.lval (cells buckets) element i := by
  cases content : buckets i with
  | null => simp [freeBucket,stop,cells,content]
  | deleted => exact absurd content (clean i)
  | assoc value =>
    have other : value.lval ≠ element := absent i value (by simp [cells,content])
    simp [freeBucket,stop,cells,content,other]

theorem convertLoop_holds (values : List (CfAssoc ρ τ)) (holds : Holds getHash buckets m)
    (distinct : Mapping.Distinct (m++values)) (few : (m++values).length ≤ cfHashtablesize) :
    ∃ next, convertLoop getHash buckets values = some next ∧ Holds getHash next (m++values) := by
  induction values generalizing buckets m with
  | nil => exact ⟨buckets,rfl,by simpa using holds⟩
  | cons assoc values ih =>
    have missing : m.has assoc.lval = false := by
      rw [← Bool.not_eq_true]
      intro has
      obtain ⟨other,mem,same⟩ := has_iff.mp has
      unfold Mapping.Distinct at distinct
      rw [map_append] at distinct
      exact (nodup_append.mp distinct).2.2 _ (mem_map_of_mem mem) _ (.head _) same
    have absent := held_absent holds missing
    have same : freeBucket buckets = stop CfAssoc.lval (cells buckets) assoc.lval := by
      funext i
      exact freeBucket_stop absent i holds.clean
    rw [length_append,length_cons] at few
    obtain ⟨empty,free⟩ := held_room holds (by omega)
    obtain ⟨i,found,none,first⟩ := place_absent absent free
    have sought : seek (freeBucket buckets) cfHashtablesize (getHash assoc.lval) = some i := by
      rw [seek_search,same]
      exact found
    have placed := put_holds holds missing none first
    have joined : m++assoc :: values = (m++[assoc])++values := by simp
    rw [joined] at distinct ⊢
    obtain ⟨next,converted,holds⟩ := ih placed distinct (by simp; omega)
    exact ⟨next,by simp [convertLoop,sought,converted],holds⟩

end

section
variable {buckets : Buckets ρ τ}

def behind (buckets : Buckets ρ τ) (pos : Nat) : List (CfAssoc ρ τ) :=
  ((List.finRange cfHashtablesize).drop pos).filterMap (cells buckets)

theorem behind_end (ended : cfHashtablesize ≤ pos) : behind buckets pos = [] := by
  unfold behind
  rw [drop_eq_nil_of_le (by simpa using ended)]
  rfl

theorem behind_cons (inside : pos < cfHashtablesize) :
    behind buckets pos = (cells buckets ⟨pos,inside⟩).toList++behind buckets (pos+1) := by
  unfold behind
  rw [drop_eq_getElem_cons (by simpa using inside),filterMap_cons]
  cases content : cells buckets ⟨pos,inside⟩ with
  | none | some value => simp [content]

theorem occupiedLoop_behind (left pos : Nat) : behind buckets (occupiedLoop buckets left pos) = behind buckets pos := by
  induction left generalizing pos with
  | zero => rfl
  | succ left ih =>
    unfold occupiedLoop
    split
    · rename_i inside
      split
      · rfl
      rename_i empty
      rw [ih,behind_cons inside]
      have none : cells buckets ⟨pos,inside⟩ = none := by
        unfold cells
        split
        · rename_i value content
          exact absurd content (empty value)
        · rfl
      rw [none]
      rfl
    · rfl

theorem occupiedLoop_stops (left pos : Nat) (enough : cfHashtablesize ≤ pos+left) :
    (∃ found inside value, occupiedLoop buckets left pos = found ∧ buckets ⟨found,inside⟩ = .assoc value) ∨
      cfHashtablesize ≤ occupiedLoop buckets left pos := by
  induction left generalizing pos with
  | zero => exact .inr enough
  | succ left ih =>
    unfold occupiedLoop
    by_cases inside : pos < cfHashtablesize
    · rw [dif_pos inside]
      cases content : buckets ⟨pos,inside⟩ with
      | assoc value => exact .inl ⟨pos,inside,value,rfl,content⟩
      | null | deleted => exact ih (pos+1) (by omega)
    · rw [dif_neg inside]
      exact .inr (Nat.le_of_not_lt inside)

theorem hugeNext_cases (buckets : Buckets ρ τ) (pos : Nat) :
    (behind buckets pos = [] ∧ (hugeHashIteratorNext buckets pos).1 = none) ∨
      ∃ value, behind buckets pos = value :: behind buckets (hugeHashIteratorNext buckets pos).2 ∧
        (hugeHashIteratorNext buckets pos).1 = some value := by
  have same : behind buckets (occupiedLoop buckets (cfHashtablesize-pos) pos) = behind buckets pos := occupiedLoop_behind _ _
  have stops : (∃ found inside value, occupiedLoop buckets (cfHashtablesize-pos) pos = found ∧
      buckets ⟨found,inside⟩ = .assoc value) ∨ cfHashtablesize ≤ occupiedLoop buckets (cfHashtablesize-pos) pos :=
    occupiedLoop_stops _ _ (by omega)
  rcases stops with ⟨found,inside,value,loop,content⟩ | ended
  · rw [loop] at same
    have answer : hugeHashIteratorNext buckets pos = (some value,found+1) := by
      simp [hugeHashIteratorNext,loop,inside,content]
    rw [← same,answer,behind_cons inside]
    simp [cells,content]
  · left
    refine ⟨by rw [← same,behind_end ended],?_⟩
    simp [hugeHashIteratorNext,Nat.not_lt.mpr ended]

theorem iterate_huge (turns pos : Nat) (enough : (behind buckets pos).length < turns) :
    iterate turns ⟨.huge buckets,pos⟩ = some (behind buckets pos) := by
  induction turns generalizing pos with
  | zero => exact absurd enough (Nat.not_lt_zero _)
  | succ turns ih =>
    rcases hugeNext_cases buckets pos with ⟨empty,none⟩ | ⟨value,cons,some⟩
    · simp [iterate,hashIteratorNext,none,empty]
    · rw [cons,length_cons] at enough
      have rest := ih (hugeHashIteratorNext buckets pos).2 (by omega)
      simp [iterate,hashIteratorNext,some,rest,cons]

theorem iterate_array (array : AssocArray ρ τ) (turns pos : Nat) (enough : (array.values.drop pos).length < turns) :
    iterate turns ⟨.array array,pos⟩ = some (array.values.drop pos) := by
  induction turns generalizing pos with
  | zero => exact absurd enough (Nat.not_lt_zero _)
  | succ turns ih =>
    by_cases inside : pos < array.values.length
    · have rest := ih (pos+1) (by rw [length_drop] at enough ⊢; omega)
      simp [iterate,hashIteratorNext,tinyHashIteratorNext,inside,rest]
    · rw [drop_eq_nil_of_le (Nat.le_of_not_lt inside)]
      simp [iterate,hashIteratorNext,tinyHashIteratorNext,inside]

end

inductive Represents (getHash : String → Fin cfHashtablesize) : AssocHashTable ρ τ → Mapping ρ τ → Prop where
  | array : Represents getHash (.array array) array.values
  | huge : Holds getHash buckets m → Represents getHash (.huge buckets) m

structure Behaves (getHash : String → Fin cfHashtablesize) (table : AssocHashTable ρ τ) (m : Mapping ρ τ) : Prop where
  lookups : ∀ element, hashLookupElement getHash element table = some (m.lookup element)
  inserts : ∀ element rval dtype, (hashInsertElement getHash element rval dtype table).map Prod.fst =
    some (!m.has element)
  deletes : ∀ element, (hashDeleteElement getHash element table).map Prod.fst = some (m.has element)
  visits : ∃ visited, (∀ turns, visited.length < turns → iterate turns (hashIteratorInit table) = some visited) ∧
    visited.Perm m

section
variable {getHash : String → Fin cfHashtablesize} {table : AssocHashTable ρ τ} {m : Mapping ρ τ}

section
variable (represents : Represents getHash table m) (distinct : m.Distinct)
include represents distinct

theorem insert_represents (few : m.length < cfHashtablesize) (element : String) (rval : ρ) (dtype : τ) :
    ∃ next, hashInsertElement getHash element rval dtype table = some ((m.insert ⟨element,rval,dtype⟩).1,next) ∧
      Represents getHash next (m.insert ⟨element,rval,dtype⟩).2 := by
  cases represents with
  | huge holds =>
    obtain ⟨next,inserted,holds⟩ := insert_agrees holds few
    exact ⟨.huge next,by simp [hashInsertElement,inserted],.huge holds⟩
  | @array array =>
    by_cases room : array.values.length ≠ tinyLimit
    · cases has : Mapping.has array.values element with
      | true =>
        rw [insert_present has]
        exact ⟨.array array,tinyInsert_present room has,.array⟩
      | false =>
        rw [insert_missing has]
        exact ⟨_,tinyInsert_missing room has,.array⟩
    · obtain ⟨buckets,converted,holds⟩ := convertLoop_holds array.values (empty_holds getHash) distinct (le_of_lt few)
      obtain ⟨next,inserted,holds⟩ := insert_agrees holds few
      refine ⟨.huge next,?_,.huge holds⟩
      rw [hashInsertElement,tinyHashInsertElement,dif_neg room,hashConvertToHuge,converted]
      simpa using inserted

theorem lookup_represents (element : String) : hashLookupElement getHash element table = some (m.lookup element) := by
  cases represents with
  | huge holds => exact lookup_agrees holds distinct
  | array => rfl

-- Deleting is safe where no other association is reached through the bucket.
def Unbroken (getHash : String → Fin cfHashtablesize) (element : String) : AssocHashTable ρ τ → Prop
  | .array _ => True
  | .huge buckets => ∀ i assoc, buckets i = .assoc assoc → assoc.lval = element →
      ∀ j other, j ≠ i → buckets j = .assoc other → ¬Passed (getHash other.lval) j i

omit represents distinct in
theorem cells_iff : cells buckets i = some assoc ↔ buckets i = .assoc assoc := by
  unfold cells
  split
  · rename_i value content
    rw [content]
    simp
  · rename_i empty
    exact ⟨fun wrong => (by cases wrong),fun content => absurd content (empty assoc)⟩

omit represents distinct in
theorem delete_present_at (represents : Represents getHash (.huge buckets) m) (distinct : m.Distinct)
    (here : cells buckets i = some assoc) :
    hashDeleteElement getHash assoc.lval (.huge buckets) =
      some ((m.delete assoc.lval).1,.huge (Function.update buckets i .null)) := by
  cases represents with
  | huge holds =>
    have mem := (held_at holds).mp ⟨i,here⟩
    simp [hashDeleteElement,delete_present holds here,(delete_held distinct mem).1]

theorem delete_represents (unbroken : Unbroken getHash element table) :
    ∃ next, hashDeleteElement getHash element table = some ((m.delete element).1,next) ∧
      Represents getHash next (m.delete element).2 := by
  cases represents with
  | @huge buckets m holds =>
    cases has : m.has element with
    | true =>
      obtain ⟨assoc,mem,rfl⟩ := has_iff.mp has
      obtain ⟨i,here⟩ := (held_at holds).mpr mem
      have spare : Spare CfAssoc.lval getHash (cells buckets) i := by
        intro j other different there
        exact unbroken i assoc (cells_iff.mp here) rfl j other different (cells_iff.mp there)
      exact ⟨_,delete_present_at (.huge holds) distinct here,.huge (remove_holds holds distinct here spare)⟩
    | false =>
      have same : m.delete element = (false,m) := by simp [Mapping.delete,has]
      rw [same]
      exact ⟨.huge buckets,by simp [hashDeleteElement,delete_missing holds has],.huge holds⟩
  | @array array =>
    obtain ⟨answer,values⟩ := tinyDelete_agrees
    refine ⟨.array (tinyHashDeleteElement array element).2,?_,?_⟩
    · rw [hashDeleteElement,answer]
    · rw [← values]
      exact .array

theorem delete_loses (broken : ¬Unbroken getHash element table) :
    ∃ next other, hashDeleteElement getHash element table = some ((m.delete element).1,next) ∧
      other ∈ (m.delete element).2 ∧ hashLookupElement getHash other.lval next = some none := by
  cases represents with
  | array => exact absurd trivial broken
  | @huge buckets m holds =>
    simp only [Unbroken] at broken
    push Not at broken
    obtain ⟨i,assoc,at_,rfl,j,other,different,there,passed⟩ := broken
    have here := cells_iff.mpr at_
    have kept := cells_iff.mpr there
    refine ⟨_,other,delete_present_at (.huge holds) distinct here,?_,?_⟩
    · refine (remove_held holds distinct here).mem_iff.mp (contents_mem.mpr ⟨j,?_⟩)
      rw [Function.update_of_ne different]
      exact kept
    · exact lookup_hidden holds kept passed

theorem delete_answers (element : String) :
    ∃ next, hashDeleteElement getHash element table = some (m.has element,next) := by
  rw [← delete_has]
  by_cases unbroken : Unbroken getHash element table
  · obtain ⟨next,deleted,_⟩ := delete_represents represents distinct unbroken
    exact ⟨next,deleted⟩
  · obtain ⟨next,_,deleted,_⟩ := delete_loses represents distinct unbroken
    exact ⟨next,deleted⟩

theorem behaves_represented (few : m.length < cfHashtablesize) : Behaves getHash table m := by
  refine ⟨lookup_represents represents distinct,?_,?_,?_⟩
  · intro element rval dtype
    obtain ⟨next,inserted,_⟩ := insert_represents represents distinct few element rval dtype
    have answer : (m.insert ⟨element,rval,dtype⟩).1 = !m.has element := by
      unfold Mapping.insert
      cases m.has element <;> rfl
    rw [inserted,← answer]
    rfl
  · intro element
    obtain ⟨next,deleted⟩ := delete_answers represents distinct element
    rw [deleted]
    rfl
  · cases represents with
    | @huge buckets m holds =>
      refine ⟨behind buckets 0,fun turns => iterate_huge turns 0,?_⟩
      rw [behind,drop_zero]
      exact holds.held
    | @array array => exact ⟨array.values,fun turns => iterate_array array turns 0,.refl _⟩

end

end

inductive Op (ρ τ : Type) where
  | insert (element : String) (rval : ρ) (dtype : τ)
  | delete (element : String)
  | lookup (element : String)

inductive Answer (ρ τ : Type) where
  | success (done : Bool)
  | found (assoc : Option (CfAssoc ρ τ))

section
variable (getHash : String → Fin cfHashtablesize)

def perform (table : AssocHashTable ρ τ) : Op ρ τ → Option (Answer ρ τ × AssocHashTable ρ τ)
  | .insert element rval dtype =>
    (hashInsertElement getHash element rval dtype table).map fun result => (.success result.1,result.2)
  | .delete element => (hashDeleteElement getHash element table).map fun result => (.success result.1,result.2)
  | .lookup element => (hashLookupElement getHash element table).map fun found => (.found found,table)

def Mapping.perform (m : Mapping ρ τ) : Op ρ τ → Answer ρ τ × Mapping ρ τ
  | .insert element rval dtype => (.success (m.insert ⟨element,rval,dtype⟩).1,(m.insert ⟨element,rval,dtype⟩).2)
  | .delete element => (.success (m.delete element).1,(m.delete element).2)
  | .lookup element => (.found (m.lookup element),m)

-- Fewer than as many associations as there are buckets, in every state of the run.
def Few (m : Mapping ρ τ) : List (Op ρ τ) → Prop
  | [] => m.length < cfHashtablesize
  | op :: ops => m.length < cfHashtablesize ∧ Few (m.perform op).2 ops

def Follows (table : AssocHashTable ρ τ) (m : Mapping ρ τ) : List (Op ρ τ) → Prop
  | [] => Behaves getHash table m
  | op :: ops => Behaves getHash table m ∧ ∃ next, perform getHash table op = some ((m.perform op).1,next) ∧
      Follows next (m.perform op).2 ops

def Spared (table : AssocHashTable ρ τ) : List (Op ρ τ) → Prop
  | [] => True
  | op :: ops => (∀ element, op = .delete element → Unbroken getHash element table) ∧
      ∀ answer next, perform getHash table op = some (answer,next) → Spared next ops

variable {getHash} {table : AssocHashTable ρ τ} {m : Mapping ρ τ}

theorem few_now (few : Few m ops) : m.length < cfHashtablesize := by
  cases ops with
  | nil => exact few
  | cons op ops => exact few.1

theorem follows_now (follows : Follows getHash table m ops) : Behaves getHash table m := by
  cases ops with
  | nil => exact follows
  | cons op ops => exact follows.1

theorem perform_distinct (distinct : m.Distinct) (op : Op ρ τ) : Mapping.Distinct (m.perform op).2 := by
  cases op with
  | insert element rval dtype => exact insert_distinct distinct
  | delete element => exact delete_distinct distinct
  | lookup element => exact distinct

section
variable (represents : Represents getHash table m)
include represents

theorem perform_represents (distinct : m.Distinct)
    (few : m.length < cfHashtablesize) (safe : ∀ element, op = .delete element → Unbroken getHash element table) :
    ∃ next, perform getHash table op = some ((m.perform op).1,next) ∧ Represents getHash next (m.perform op).2 := by
  cases op with
  | insert element rval dtype =>
    obtain ⟨next,inserted,represents⟩ := insert_represents represents distinct few element rval dtype
    exact ⟨next,by simp [perform,Mapping.perform,inserted],represents⟩
  | delete element =>
    obtain ⟨next,deleted,represents⟩ := delete_represents represents distinct (safe element rfl)
    exact ⟨next,by simp [perform,Mapping.perform,deleted],represents⟩
  | lookup element =>
    exact ⟨table,by simp [perform,Mapping.perform,lookup_represents represents distinct],represents⟩

theorem unsafe_diverges (distinct : m.Distinct)
    (broken : ¬Unbroken getHash element table) : ¬Follows getHash table m (.delete element :: ops) := by
  rintro ⟨_,next,performed,follows⟩
  obtain ⟨after,other,deleted,mem,lost⟩ := delete_loses represents distinct broken
  have same : next = after := by
    simp only [perform,deleted,Option.map_some,Option.some.injEq,Prod.mk.injEq] at performed
    exact performed.2.symm
  subst same
  have found := (follows_now follows).lookups other.lval
  rw [lost,show (Mapping.perform m (.delete element)).2 = (m.delete element).2 from rfl,
    lookup_held (delete_distinct distinct) mem] at found
  cases found

theorem follows_spared (distinct : m.Distinct) (few : Few m ops) :
    Follows getHash table m ops ↔ Spared getHash table ops := by
  have now := few_now few
  have behaves := behaves_represented represents distinct now
  induction ops generalizing table m with
  | nil => exact ⟨fun _ => trivial,fun _ => behaves⟩
  | cons op ops ih =>
    by_cases safe : ∀ element, op = .delete element → Unbroken getHash element table
    · obtain ⟨next,performed,after⟩ := perform_represents represents distinct now safe
      have distinct' := perform_distinct distinct op
      have rest := ih after distinct' few.2 (few_now few.2) (behaves_represented after distinct' (few_now few.2))
      constructor
      · rintro ⟨_,other,performed',follows⟩
        rw [performed] at performed'
        cases performed'
        refine ⟨safe,?_⟩
        intro answer other performed'
        rw [performed] at performed'
        cases performed'
        exact rest.mp follows
      · rintro ⟨_,spared⟩
        exact ⟨behaves,next,performed,rest.mpr (spared _ next performed)⟩
    · constructor
      · intro follows
        push Not at safe
        obtain ⟨element,rfl,broken⟩ := safe
        exact absurd follows (unsafe_diverges represents distinct broken)
      · rintro ⟨spared,_⟩
        exact absurd spared safe

end

end

theorem table_follows (getHash : String → Fin cfHashtablesize) (ops : List (Op ρ τ)) (few : Few [] ops) :
    Follows getHash hashInit [] ops ↔ Spared getHash hashInit ops :=
  follows_spared .array nodup_nil few

theorem undeleted_spared (ops : List (Op ρ τ))
    (undeleted : ∀ element, .delete element ∉ ops) (table : AssocHashTable ρ τ) : Spared getHash table ops := by
  induction ops generalizing table with
  | nil => trivial
  | cons op ops ih =>
    refine ⟨?_,fun _ next _ => ih (fun element mem => undeleted element (.tail _ mem)) next⟩
    rintro element rfl
    exact absurd (.head _) (undeleted element)

instance fewDecidable (m : Mapping ρ τ) : ∀ ops, Decidable (Few m ops)
  | [] => inferInstanceAs (Decidable (m.length < cfHashtablesize))
  | op :: ops => @instDecidableAnd _ _ _ (fewDecidable (m.perform op).2 ops)

def names : List String := ["a","b","c","d","e","f","g","h","i","j","k","l","m","n"]

theorem pairedBucket_inside (name : String) : names.idxOf name%14*2 < cfHashtablesize := by
  unfold cfHashtablesize
  omega

def pairedBucket (name : String) : Fin cfHashtablesize := ⟨names.idxOf name%14*2,pairedBucket_inside name⟩

def fifteen : List (Op Nat Nat) := (names++["o"]).map fun name => .insert name 0 0

theorem table_follows_fifteen : Follows pairedBucket hashInit [] (fifteen++[.lookup "o"]) := by
  refine (table_follows pairedBucket (fifteen++[.lookup "o"]) (by decide +kernel)).mpr (undeleted_spared _ ?_ _)
  intro element
  simp [fifteen]

def performAll (getHash : String → Fin cfHashtablesize) (table : AssocHashTable ρ τ) :
    List (Op ρ τ) → Option (AssocHashTable ρ τ)
  | [] => some table
  | op :: ops => (perform getHash table op).bind fun result => performAll getHash result.2 ops

def Mapping.performAll (m : Mapping ρ τ) : List (Op ρ τ) → Mapping ρ τ
  | [] => m
  | op :: ops => Mapping.performAll (m.perform op).2 ops

-- After the table has become huge, "o" is behind "a" and is lost with it.
theorem deletion_hides : Few [] (fifteen++[.delete "a"]) ∧
    (performAll pairedBucket hashInit fifteen).bind (hashLookupElement pairedBucket "o") = some (some ⟨"o",0,0⟩) ∧
    (performAll pairedBucket hashInit (fifteen++[.delete "a"])).bind (hashLookupElement pairedBucket "o") = some none ∧
    (Mapping.performAll [] (fifteen++[.delete "a"])).lookup "o" = some ⟨"o",0,0⟩ :=
  ⟨by decide +kernel,by decide +kernel,by decide +kernel,by decide +kernel⟩

end Cfengine.Hashes
