import Mathlib.Logic.Function.Basic

namespace Cfengine.Lastseen
open Function (update)

def cfBufsize : Nat := 4096

-- The hostkey and address entries, by the text of their keys.
abbrev Database := List Char → Option (List Char)

def entryKey (kind : Char) (name : List Char) : List Char := (kind :: name).take (cfBufsize-1)

-- A value that fills the buffer has no null octet there, and is read on into what stands behind it.
def readDB (outside : List Char) (db : Database) (key : List Char) : Option (List Char) :=
  (db key).map fun value => if value.length < cfBufsize then value else value.take cfBufsize++outside

def updateLastSawHost (db : Database) (hostkey address : List Char) : Database :=
  update (update db (entryKey 'k' hostkey) (some address)) (entryKey 'a' address) (some hostkey)

def removeHostFromLastSeen (outside : List Char) (db : Database) (hostkey : List Char) : Database :=
  let db := match readDB outside db (entryKey 'k' hostkey) with
    | some address => update db (entryKey 'a' address) none
    | none => db
  update db (entryKey 'k' hostkey) none

def address2HostkeyInDB (outside : List Char) (db : Database) (address : List Char) : Option (List Char) × Database :=
  match readDB outside db (entryKey 'a' address) with
  | none => (none,db)
  | some hostkey =>
    match readDB outside db (entryKey 'k' hostkey) with
    | none => (none,update db (entryKey 'a' address) none)
    | some backAddress =>
      if address = backAddress then (some (hostkey.take (cfBufsize-1)),db) else (none,update db (entryKey 'a' address) none)

def ownAddress (vipaddress address : List Char) : Prop :=
  address = "127.0.0.1".toList ∨ address = "::1".toList ∨ address = vipaddress

instance : Decidable (ownAddress vipaddress address) := inferInstanceAs (Decidable (_ ∨ _))

def address2Hostkey (outside vipaddress : List Char) (pubkey : Option (List Char)) (db : Database) (address : List Char) :
    Option (List Char) × Database :=
  if ownAddress vipaddress address then (pubkey,db) else address2HostkeyInDB outside db address

section
variable {outside vipaddress host address : List Char} {db : Database} {pubkey : Option (List Char)}

theorem mapped_iff : (address2HostkeyInDB outside db address).1 = some other ↔ ∃ hostkey,
    readDB outside db (entryKey 'a' address) = some hostkey ∧ readDB outside db (entryKey 'k' hostkey) = some address ∧
      entryKey 'k' hostkey = entryKey 'k' other ∧ hostkey.take (cfBufsize-1) = other := by
  unfold address2HostkeyInDB
  constructor
  · intro mapped
    split at mapped
    · cases mapped
    rename_i hostkey found
    split at mapped
    · cases mapped
    rename_i back known
    split at mapped
    · rename_i same
      cases mapped
      refine ⟨hostkey,found,same ▸ known,?_,rfl⟩
      simp [entryKey,cfBufsize,List.take_take]
    · cases mapped
  · rintro ⟨hostkey,found,known,_,rfl⟩
    simp [found,known]

def Recorded (outside : List Char) (db : Database) (host key : List Char) : Prop :=
  ∃ recorded, readDB outside db (entryKey 'k' host) = some recorded ∧ entryKey 'a' recorded = key

theorem read_removed (key : List Char) : (key = entryKey 'k' host ∨ Recorded outside db host key →
      readDB outside (removeHostFromLastSeen outside db host) key = none) ∧
    (key ≠ entryKey 'k' host → ¬Recorded outside db host key →
      readDB outside (removeHostFromLastSeen outside db host) key = readDB outside db key) := by
  unfold removeHostFromLastSeen Recorded
  by_cases main : key = entryKey 'k' host
  · simp [readDB,main]
  cases found : readDB outside db (entryKey 'k' host) with
  | none => simp [readDB,main]
  | some recorded =>
    by_cases same : entryKey 'a' recorded = key
    · simp [readDB,main,same]
    · simp [readDB,main,same,Ne.symm same]

theorem kinds_apart : entryKey 'a' left ≠ entryKey 'k' right := by simp [entryKey,cfBufsize]

theorem removed_exact (mapped : (address2Hostkey outside vipaddress pubkey db address).1 = some other) :
    (address2Hostkey outside vipaddress pubkey (removeHostFromLastSeen outside db host) address).1 = some other ↔
      ownAddress vipaddress address ∨
        (¬Recorded outside db host (entryKey 'a' address) ∧ entryKey 'k' other ≠ entryKey 'k' host) := by
  unfold address2Hostkey at mapped ⊢
  by_cases own : ownAddress vipaddress address
  · rw [if_pos own] at mapped ⊢
    exact iff_of_true mapped (.inl own)
  rw [if_neg own] at mapped ⊢
  rw [or_iff_right own]
  constructor
  · intro still
    obtain ⟨hostkey,found,known,same,_⟩ := mapped_iff.mp still
    refine ⟨fun recorded => ?_,fun equal => ?_⟩
    · rw [(read_removed _).1 (.inr recorded)] at found
      cases found
    · rw [(read_removed _).1 (.inl (same.trans equal))] at known
      cases known
  · rintro ⟨kept,apart⟩
    obtain ⟨hostkey,found,known,same,short⟩ := mapped_iff.mp mapped
    refine mapped_iff.mpr ⟨hostkey,?_,?_,same,short⟩
    · rw [(read_removed _).2 kinds_apart kept]
      exact found
    · rw [(read_removed _).2 (same ▸ apart) fun ⟨_,_,equal⟩ => kinds_apart equal]
      exact known

end

def shared : Database := updateLastSawHost (updateLastSawHost (fun _ => none) ['A'] ['1']) ['B'] ['1']

theorem removed_exact_shared : (address2Hostkey [] [] none (removeHostFromLastSeen [] shared ['A']) ['1']).1 = some ['B'] ↔
    ownAddress [] ['1'] ∨ (¬Recorded [] shared ['A'] (entryKey 'a' ['1']) ∧ entryKey 'k' ['B'] ≠ entryKey 'k' ['A']) :=
  removed_exact (by decide)

theorem reverse_entry_lost : (address2Hostkey [] [] none shared ['1']).1 = some ['B'] ∧
    (address2Hostkey [] [] none (removeHostFromLastSeen [] shared ['A']) ['1']).1 = none := by decide

inductive Call where
  | update (hostkey address : List Char)
  | remove (hostkey : List Char)
  | lookup (address : List Char)

def perform (outside : List Char) (db : Database) : Call → Database
  | .update hostkey address => updateLastSawHost db hostkey address
  | .remove hostkey => removeHostFromLastSeen outside db hostkey
  | .lookup address => (address2HostkeyInDB outside db address).2

theorem perform_absent (absent : db (entryKey 'k' host) = none)
    (other : ∀ hostkey address, call = .update hostkey address → entryKey 'k' hostkey ≠ entryKey 'k' host) :
    perform outside db call (entryKey 'k' host) = none := by
  have apart address := (@kinds_apart address host).symm
  cases call with
  | update hostkey address => simp [perform,updateLastSawHost,apart,absent,(other hostkey address rfl).symm]
  | remove hostkey =>
    by_cases same : entryKey 'k' host = entryKey 'k' hostkey
    · simp [perform,removeHostFromLastSeen,same]
    · rw [perform,removeHostFromLastSeen,Function.update_of_ne same]
      cases readDB outside db (entryKey 'k' hostkey) <;> simp [apart,absent]
  | lookup address =>
    rw [perform,address2HostkeyInDB]
    repeat' split
    all_goals simp [apart,absent]

-- A host that was removed is not found before it is seen again.
theorem removed_stays (outside address : List Char) (db : Database) (calls : List Call)
    (others : ∀ hostkey address, .update hostkey address ∈ calls → entryKey 'k' hostkey ≠ entryKey 'k' host) :
    (address2HostkeyInDB outside (calls.foldl (perform outside) (removeHostFromLastSeen outside db host)) address).1 ≠
      some host := by
  have begun : removeHostFromLastSeen outside db host (entryKey 'k' host) = none := by simp [removeHostFromLastSeen]
  have absent := calls.foldlRecOn (motive := fun db => db (entryKey 'k' host) = none) (perform outside) begun
    fun _ absent _ mem => perform_absent absent fun hostkey address same => others hostkey address (same ▸ mem)
  intro mapped
  obtain ⟨hostkey,_,known,same,_⟩ := mapped_iff.mp mapped
  simp [readDB,same,absent] at known

theorem removed_stays_shared : (address2HostkeyInDB []
    (perform [] (removeHostFromLastSeen [] shared ['A']) (.lookup ['1'])) ['1']).1 ≠ some ['A'] :=
  removed_stays [] ['1'] shared [.lookup ['1']] (by simp)

end Cfengine.Lastseen
