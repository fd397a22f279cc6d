import SipxExternals.FoundationsOpenAddressing

namespace Cfengine.Hashes
open Foundations.OpenAddressing

def tinyLimit : Nat := 14

@[irreducible] def cfHashtablesize : Nat := 8192

structure CfAssoc (ρ τ : Type) where
  lval : String
  rval : ρ
  dtype : τ
  deriving DecidableEq

-- HASH_ENTRY_DELETED is looked for, and nothing stores it.
inductive Bucket (ρ τ : Type) where
  | null
  | deleted
  | assoc (value : CfAssoc ρ τ)

abbrev Buckets (ρ τ : Type) := Fin cfHashtablesize → Bucket ρ τ

structure AssocArray (ρ τ : Type) where
  values : List (CfAssoc ρ τ)
  fits : values.length ≤ tinyLimit

inductive AssocHashTable (ρ τ : Type) where
  | array (array : AssocArray ρ τ)
  | huge (buckets : Buckets ρ τ)

def hashInit : AssocHashTable ρ τ := .array ⟨[],Nat.zero_le _⟩

section
variable (getHash : String → Fin cfHashtablesize)

def freeBucket (buckets : Buckets ρ τ) (i : Fin cfHashtablesize) : Option (Fin cfHashtablesize) :=
  match buckets i with
  | .null => some i
  | _ => none

-- No result means that a loop over the buckets did not end in as many turns as there are
-- buckets.
def convertLoop (buckets : Buckets ρ τ) : List (CfAssoc ρ τ) → Option (Buckets ρ τ)
  | [] => some buckets
  | assoc :: rest =>
    match seek (freeBucket buckets) cfHashtablesize (getHash assoc.lval) with
    | none => none
    | some bucket => convertLoop (Function.update buckets bucket (.assoc assoc)) rest

def hashConvertToHuge (array : AssocArray ρ τ) : Option (Buckets ρ τ) := convertLoop getHash (fun _ => .null) array.values

def insertVisit (buckets : Buckets ρ τ) (element : String) (i : Fin cfHashtablesize) : Option (Option (Fin cfHashtablesize)) :=
  match buckets i with
  | .null | .deleted => some (some i)
  | .assoc value => if element = value.lval then some none else none

def hugeHashInsertElement (buckets : Buckets ρ τ) (assoc : CfAssoc ρ τ) : Option (Bool × Buckets ρ τ) :=
  match scan (insertVisit buckets assoc.lval) (getHash assoc.lval) cfHashtablesize (getHash assoc.lval) with
  | none => none
  | some none => some (false,buckets)
  | some (some none) => some (false,buckets)
  | some (some (some i)) => some (true,Function.update buckets i (.assoc assoc))

theorem push_fits {array : AssocArray ρ τ} (room : array.values.length ≠ tinyLimit) :
    (array.values++[assoc]).length ≤ tinyLimit := by
  rw [List.length_append,List.length_singleton]
  have fits := array.fits
  omega

def tinyHashInsertElement (array : AssocArray ρ τ) (assoc : CfAssoc ρ τ) : Option (Bool × AssocHashTable ρ τ) :=
  if room : array.values.length ≠ tinyLimit then
    if array.values.any fun value => value.lval = assoc.lval then some (false,.array array)
    else some (true,.array ⟨array.values++[assoc],push_fits room⟩)
  else
    match hashConvertToHuge getHash array with
    | none => none
    | some buckets => (hugeHashInsertElement getHash buckets assoc).map fun result => (result.1,.huge result.2)

def hashInsertElement (element : String) (rval : ρ) (dtype : τ) : AssocHashTable ρ τ → Option (Bool × AssocHashTable ρ τ)
  | .huge buckets => (hugeHashInsertElement getHash buckets ⟨element,rval,dtype⟩).map fun result => (result.1,.huge result.2)
  | .array array => tinyHashInsertElement getHash array ⟨element,rval,dtype⟩

def deleteVisit (buckets : Buckets ρ τ) (element : String) (i : Fin cfHashtablesize) : Option (Option (Fin cfHashtablesize)) :=
  match buckets i with
  | .null => some none
  | .deleted => none
  | .assoc value => if element = value.lval then some (some i) else none

def hugeHashDeleteElement (buckets : Buckets ρ τ) (element : String) : Option (Bool × Buckets ρ τ) :=
  match scan (deleteVisit buckets element) (getHash element) cfHashtablesize (getHash element) with
  | none => none
  | some none => some (false,buckets)
  | some (some none) => some (false,buckets)
  | some (some (some i)) => some (true,Function.update buckets i .null)

theorem erase_fits {array : AssocArray ρ τ} :
    (array.values.eraseP fun value => value.lval = element).length ≤ tinyLimit :=
  le_trans List.length_eraseP_le array.fits

def tinyHashDeleteElement (array : AssocArray ρ τ) (element : String) : Bool × AssocArray ρ τ :=
  if array.values.any fun value => value.lval = element then
    (true,⟨array.values.eraseP fun value => value.lval = element,erase_fits⟩)
  else (false,array)

def hashDeleteElement (element : String) : AssocHashTable ρ τ → Option (Bool × AssocHashTable ρ τ)
  | .huge buckets => (hugeHashDeleteElement getHash buckets element).map fun result => (result.1,.huge result.2)
  | .array array => some ((tinyHashDeleteElement array element).1,.array (tinyHashDeleteElement array element).2)

def lookupVisit (buckets : Buckets ρ τ) (element : String) (i : Fin cfHashtablesize) : Option (Option (CfAssoc ρ τ)) :=
  match buckets i with
  | .null => some none
  | .deleted => none
  | .assoc value => if element = value.lval then some (some value) else none

def hugeHashLookupElement (buckets : Buckets ρ τ) (element : String) : Option (Option (CfAssoc ρ τ)) :=
  match scan (lookupVisit buckets element) (getHash element) cfHashtablesize (getHash element) with
  | none => none
  | some none => some none
  | some (some found) => some found

def tinyHashLookupElement (array : AssocArray ρ τ) (element : String) : Option (CfAssoc ρ τ) :=
  array.values.find? fun value => value.lval = element

def hashLookupElement (element : String) : AssocHashTable ρ τ → Option (Option (CfAssoc ρ τ))
  | .huge buckets => hugeHashLookupElement getHash buckets element
  | .array array => some (tinyHashLookupElement array element)

end

structure HashIterator (ρ τ : Type) where
  hashtable : AssocHashTable ρ τ
  pos : Nat

def hashIteratorInit (hashtable : AssocHashTable ρ τ) : HashIterator ρ τ := ⟨hashtable,0⟩

def occupiedLoop (buckets : Buckets ρ τ) : Nat → Nat → Nat
  | 0,pos => pos
  | left+1,pos =>
    if inside : pos < cfHashtablesize then
      match buckets ⟨pos,inside⟩ with
      | .assoc _ => pos
      | _ => occupiedLoop buckets left (pos+1)
    else pos

def hugeHashIteratorNext (buckets : Buckets ρ τ) (pos : Nat) : Option (CfAssoc ρ τ) × Nat :=
  let found := occupiedLoop buckets (cfHashtablesize-pos) pos
  if inside : found < cfHashtablesize then
    match buckets ⟨found,inside⟩ with
    | .assoc value => (some value,found+1)
    | _ => (none,found+1)
  else (none,found)

def tinyHashIteratorNext (array : AssocArray ρ τ) (pos : Nat) : Option (CfAssoc ρ τ) × Nat :=
  match array.values[pos]? with
  | none => (none,pos)
  | some value => (some value,pos+1)

def hashIteratorNext (i : HashIterator ρ τ) : Option (CfAssoc ρ τ) × HashIterator ρ τ :=
  match i.hashtable with
  | .huge buckets => ((hugeHashIteratorNext buckets i.pos).1,{i with pos := (hugeHashIteratorNext buckets i.pos).2})
  | .array array => ((tinyHashIteratorNext array i.pos).1,{i with pos := (tinyHashIteratorNext array i.pos).2})

-- What a loop over an iterator sees. No result means that the turns allowed were not enough.
def iterate : Nat → HashIterator ρ τ → Option (List (CfAssoc ρ τ))
  | 0,_ => none
  | turns+1,i =>
    match hashIteratorNext i with
    | (none,_) => some []
    | (some assoc,i) => (iterate turns i).map (assoc :: ·)

open List
open Function (update)

-- The finite map: associations with distinct names.
abbrev Mapping (ρ τ : Type) := List (CfAssoc ρ τ)

def Mapping.has (m : Mapping ρ τ) (element : String) : Bool := m.any fun value => value.lval = element

def Mapping.insert (m : Mapping ρ τ) (assoc : CfAssoc ρ τ) : Bool × Mapping ρ τ :=
  if m.has assoc.lval then (false,m) else (true,m++[assoc])

def Mapping.delete (m : Mapping ρ τ) (element : String) : Bool × Mapping ρ τ :=
  if m.has element then (true,m.eraseP fun value => value.lval = element) else (false,m)

def Mapping.lookup (m : Mapping ρ τ) (element : String) : Option (CfAssoc ρ τ) := m.find? fun value => value.lval = element

def Mapping.Distinct (m : Mapping ρ τ) : Prop := (m.map CfAssoc.lval).Nodup

section
variable {m : Mapping ρ τ}

theorem has_iff : m.has element = true ↔ ∃ assoc ∈ m, assoc.lval = element := by
  simp [Mapping.has]

theorem distinct_split (distinct : m.Distinct) (mem : assoc ∈ m) :
    ∃ before behind, m = before++assoc :: behind ∧ ∀ other ∈ before++behind, other.lval ≠ assoc.lval := by
  obtain ⟨before,behind,rfl⟩ := append_of_mem mem
  refine ⟨before,behind,rfl,?_⟩
  have names : ((assoc :: (before++behind)).map CfAssoc.lval).Nodup :=
    (perm_middle.map CfAssoc.lval).nodup_iff.mp distinct
  intro other inside same
  exact (nodup_cons.mp names).1 (same ▸ mem_map_of_mem inside)

theorem lookup_held (distinct : m.Distinct) (mem : assoc ∈ m) : m.lookup assoc.lval = some assoc := by
  obtain ⟨before,behind,rfl,others⟩ := distinct_split distinct mem
  have none : before.find? (fun value => value.lval = assoc.lval) = none := by
    refine find?_eq_none.mpr ?_
    intro other inside
    simpa using others other (mem_append_left _ inside)
  simp [Mapping.lookup,find?_append,none]

theorem lookup_missing (missing : m.has element = false) : m.lookup element = none := by
  refine find?_eq_none.mpr ?_
  intro other inside
  simpa using (any_eq_false.mp missing) other inside

theorem delete_held (distinct : m.Distinct) (mem : assoc ∈ m) :
    (m.delete assoc.lval).1 = true ∧ m.Perm (assoc :: (m.delete assoc.lval).2) := by
  have held : m.has assoc.lval = true := has_iff.mpr ⟨assoc,mem,rfl⟩
  unfold Mapping.delete
  rw [if_pos held]
  refine ⟨rfl,?_⟩
  obtain ⟨before,behind,rfl,others⟩ := distinct_split distinct mem
  have away : ∀ other ∈ before, ¬(decide (other.lval = assoc.lval) = true) := by
    intro other inside
    simpa using others other (mem_append_left _ inside)
  rw [eraseP_append_right _ away,eraseP_cons_of_pos (by simp)]
  exact perm_middle

theorem delete_has (m : Mapping ρ τ) : (m.delete element).1 = m.has element := by
  unfold Mapping.delete
  cases m.has element <;> rfl

theorem insert_missing (missing : m.has assoc.lval = false) : m.insert assoc = (true,m++[assoc]) := by
  simp [Mapping.insert,missing]

theorem insert_present (present : m.has assoc.lval = true) : m.insert assoc = (false,m) := by
  simp [Mapping.insert,present]

theorem insert_distinct (distinct : m.Distinct) : Mapping.Distinct (m.insert assoc).2 := by
  unfold Mapping.insert
  split
  · exact distinct
  rename_i missing
  unfold Mapping.Distinct
  rw [map_append]
  refine nodup_append.mpr ⟨distinct,nodup_singleton _,?_⟩
  intro name here other there same
  rw [map_singleton,mem_singleton] at there
  obtain ⟨held,mem,rfl⟩ := mem_map.mp here
  exact missing (has_iff.mpr ⟨held,mem,same.trans there⟩)

theorem delete_distinct (distinct : m.Distinct) : Mapping.Distinct (m.delete element).2 := by
  unfold Mapping.delete
  split
  · exact distinct.sublist ((eraseP_sublist ..).map CfAssoc.lval)
  · exact distinct

end

theorem tinyInsert_present
    (room : array.values.length ≠ tinyLimit) (present : Mapping.has array.values assoc.lval = true) :
    tinyHashInsertElement getHash array assoc = some (false,.array array) := by
  unfold Mapping.has at present
  rw [tinyHashInsertElement,dif_pos room,if_pos present]

theorem tinyInsert_missing
    (room : array.values.length ≠ tinyLimit) (missing : Mapping.has array.values assoc.lval = false) :
    tinyHashInsertElement getHash array assoc = some (true,.array ⟨array.values++[assoc],push_fits room⟩) := by
  unfold Mapping.has at missing
  rw [tinyHashInsertElement,dif_pos room,if_neg (by rw [missing]; exact Bool.false_ne_true)]

theorem tinyDelete_agrees : (tinyHashDeleteElement array element).1 = (Mapping.delete array.values element).1 ∧
      (tinyHashDeleteElement array element).2.values = (Mapping.delete array.values element).2 := by
  unfold tinyHashDeleteElement Mapping.delete Mapping.has
  cases array.values.any (fun value => value.lval = element) <;> exact ⟨rfl,rfl⟩

def cells (buckets : Buckets ρ τ) (i : Fin cfHashtablesize) : Option (CfAssoc ρ τ) :=
  match buckets i with
  | .assoc value => some value
  | _ => none

-- What the buckets hold, with each association within reach of its hash.
structure Holds (getHash : String → Fin cfHashtablesize) (buckets : Buckets ρ τ) (m : Mapping ρ τ) : Prop where
  clean : ∀ i, buckets i ≠ .deleted
  chained : Chained CfAssoc.lval getHash (cells buckets)
  held : (contents (cells buckets)).Perm m

section
variable {getHash : String → Fin cfHashtablesize} {buckets : Buckets ρ τ} {m : Mapping ρ τ}

theorem cells_put (buckets : Buckets ρ τ) :
    cells (update buckets i (.assoc assoc)) = update (cells buckets) i (some assoc) := by
  funext j
  by_cases same : j = i
  · subst same
    simp [cells]
  · simp [cells,same]

theorem cells_removed (buckets : Buckets ρ τ) : cells (update buckets i .null) = update (cells buckets) i none := by
  funext j
  by_cases same : j = i
  · subst same
    simp [cells]
  · simp [cells,same]

section
variable (clean : ∀ i, buckets i ≠ .deleted) (element : String) (i : Fin cfHashtablesize)
include clean element i

theorem visits_stop :
    insertVisit buckets element i = (stop CfAssoc.lval (cells buckets) element i).map
      (fun i => if (cells buckets i).isNone then some i else none) ∧
    deleteVisit buckets element i = (stop CfAssoc.lval (cells buckets) element i).map
      (fun i => if (cells buckets i).isNone then none else some i) ∧
    lookupVisit buckets element i = (stop CfAssoc.lval (cells buckets) element i).map (cells buckets) := by
  cases content : buckets i with
  | null => simp [insertVisit,deleteVisit,lookupVisit,stop,cells,content]
  | deleted => exact absurd content (clean i)
  | assoc value =>
    by_cases same : element = value.lval
    · simp [insertVisit,deleteVisit,lookupVisit,stop,cells,content,same]
    · simp [insertVisit,deleteVisit,lookupVisit,stop,cells,content,same,Ne.symm same]

end

theorem scan_place (stops : ∀ i, visit i = (stop CfAssoc.lval (cells buckets) element i).map outcome) :
    scan visit (getHash element) cfHashtablesize (getHash element) =
      some ((place CfAssoc.lval getHash (cells buckets) element).map outcome) := by
  rw [scan_search,place,← search_map]
  congr 2
  funext i
  exact stops i

section
variable (holds : Holds getHash buckets m)
include holds

theorem held_at : (∃ i, cells buckets i = some assoc) ↔ assoc ∈ m := by
  rw [← contents_mem]
  exact holds.held.mem_iff

theorem held_absent (missing : m.has element = false) : Absent CfAssoc.lval (cells buckets) element := by
  intro i assoc here same
  have mem := (held_at holds).mp ⟨i,here⟩
  rw [has_iff.mpr ⟨assoc,mem,same⟩] at missing
  cases missing

theorem place_empty (missing : m.has element = false)
    (found : place CfAssoc.lval getHash (cells buckets) element = some i) : cells buckets i = none := by
  cases content : cells buckets i with
  | none => rfl
  | some assoc => exact absurd ((place_stops found).1 assoc content) (held_absent holds missing i assoc content)

theorem held_room (few : m.length < cfHashtablesize) : ∃ i, cells buckets i = none := by
  refine contents_room ?_
  rwa [holds.held.length_eq]

theorem put_holds (missing : m.has assoc.lval = false) (free : cells buckets i = none)
    (first : ∃ k, k < cfHashtablesize ∧ ahead (getHash assoc.lval) k = i ∧
      ∀ j < k, cells buckets (ahead (getHash assoc.lval) j) ≠ none) :
    Holds getHash (update buckets i (.assoc assoc)) (m++[assoc]) := by
  obtain ⟨k,inside,reached,earlier⟩ := first
  refine ⟨?_,?_,?_⟩
  · intro j
    by_cases same : j = i
    · subst same
      simp
    · simpa [same] using holds.clean j
  · rw [cells_put]
    exact put_chained holds.chained (held_absent holds missing) free inside reached earlier
  · rw [cells_put]
    exact (contents_put free).trans ((holds.held.cons assoc).trans (perm_append_singleton assoc m).symm)

end

theorem remove_clean (clean : ∀ i, buckets i ≠ .deleted) (j : Fin cfHashtablesize) :
    update buckets i .null j ≠ .deleted := by
  by_cases same : j = i
  · subst same
    simp
  · simpa [same] using clean j

section
variable (holds : Holds getHash buckets m)
include holds

theorem remove_held (distinct : m.Distinct) (here : cells buckets i = some assoc) :
    (contents (update (cells buckets) i none)).Perm (m.delete assoc.lval).2 := by
  have mem := (held_at holds).mp ⟨i,here⟩
  obtain ⟨_,parts⟩ := delete_held distinct mem
  exact ((contents_removed here).symm.trans (holds.held.trans parts)).cons_inv

theorem remove_holds (distinct : m.Distinct) (here : cells buckets i = some assoc)
    (spare : Spare CfAssoc.lval getHash (cells buckets) i) :
    Holds getHash (update buckets i .null) (m.delete assoc.lval).2 := by
  refine ⟨remove_clean holds.clean,?_,?_⟩
  · rw [cells_removed]
    exact remove_chained holds.chained spare
  · rw [cells_removed]
    exact remove_held holds distinct here

theorem lookup_agrees (distinct : m.Distinct) :
    hugeHashLookupElement getHash buckets element = some (m.lookup element) := by
  unfold hugeHashLookupElement
  rw [scan_place fun i => (visits_stop holds.clean element i).2.2]
  cases has : m.has element with
  | true =>
    obtain ⟨assoc,mem,rfl⟩ := has_iff.mp has
    obtain ⟨i,here⟩ := (held_at holds).mpr mem
    rw [place_present holds.chained here rfl,lookup_held distinct mem]
    simp [here]
  | false =>
    rw [lookup_missing has]
    cases found : place CfAssoc.lval getHash (cells buckets) element with
    | none => rfl
    | some i =>
      simp [place_empty holds has found]

theorem insert_agrees (few : m.length < cfHashtablesize) :
    ∃ next, hugeHashInsertElement getHash buckets assoc = some ((m.insert assoc).1,next) ∧
      Holds getHash next (m.insert assoc).2 := by
  unfold hugeHashInsertElement
  rw [scan_place fun i => (visits_stop holds.clean assoc.lval i).1]
  cases has : m.has assoc.lval with
  | true =>
    obtain ⟨other,mem,same⟩ := has_iff.mp has
    obtain ⟨i,here⟩ := (held_at holds).mpr mem
    rw [place_present holds.chained here same,insert_present has]
    exact ⟨buckets,by simp [here],holds⟩
  | false =>
    obtain ⟨empty,free⟩ := held_room holds few
    obtain ⟨i,found,none,first⟩ := place_absent (held_absent holds has) free
    rw [found,insert_missing has]
    exact ⟨update buckets i (.assoc assoc),by simp [none],put_holds holds has none first⟩

theorem delete_missing (missing : m.has element = false) :
    hugeHashDeleteElement getHash buckets element = some (false,buckets) := by
  unfold hugeHashDeleteElement
  rw [scan_place fun i => (visits_stop holds.clean element i).2.1]
  cases found : place CfAssoc.lval getHash (cells buckets) element with
  | none => rfl
  | some i =>
    simp [place_empty holds missing found]

theorem delete_present (here : cells buckets i = some assoc) :
    hugeHashDeleteElement getHash buckets assoc.lval = some (true,update buckets i .null) := by
  unfold hugeHashDeleteElement
  rw [scan_place fun i => (visits_stop holds.clean assoc.lval i).2.1,place_present holds.chained here rfl]
  simp [here]

theorem lookup_hidden (there : cells buckets j = some other) (passed : Passed (getHash other.lval) j i) :
    hugeHashLookupElement getHash (update buckets i .null) other.lval = some none := by
  unfold hugeHashLookupElement
  rw [scan_place fun i => (visits_stop (remove_clean holds.clean) other.lval i).2.2,cells_removed]
  cases found : place CfAssoc.lval getHash (update (cells buckets) i none) other.lval with
  | none => rfl
  | some k =>
    cases content : update (cells buckets) i none k with
    | none => simp [content]
    | some held =>
      have away : k ≠ i := by
        rintro rfl
        rw [Function.update_self] at content
        cases content
      have same := (place_stops found).1 held content
      rw [Function.update_of_ne away] at content
      have equal := holds.chained.unique k j held other content there same
      exact absurd (equal ▸ found) (remove_hides passed)

end

end

end Cfengine.Hashes
