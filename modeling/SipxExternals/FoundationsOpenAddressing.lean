import Mathlib.Data.Fintype.Card
import Mathlib.Data.List.FinRange
import Mathlib.Data.Nat.ModEq
import Mathlib.Data.List.Perm.Basic
import Mathlib.Logic.Function.Basic

namespace Foundations.OpenAddressing
open List
open Function (update update_of_ne update_self)

def next (i : Fin n) : Fin n := ⟨(i.val+1)%n,Nat.mod_lt _ i.pos⟩

def ahead (start : Fin n) (k : Nat) : Fin n := ⟨(start.val+k)%n,Nat.mod_lt _ start.pos⟩

-- A loop around the table from its start. No result means that the turns allowed were
-- not enough; an inner none that it came around without a stop.
def scan (visit : Fin n → Option β) (start : Fin n) : Nat → Fin n → Option (Option β)
  | 0,_ => none
  | turns+1,i =>
    match visit i with
    | some found => some (some found)
    | none => if next i = start then some none else scan visit start turns (next i)

-- The same loop without an end of its own.
def seek (visit : Fin n → Option β) : Nat → Fin n → Option β
  | 0,_ => none
  | turns+1,i =>
    match visit i with
    | some found => some found
    | none => seek visit turns (next i)

def search (visit : Fin n → Option β) (start : Fin n) : Option β :=
  (List.range n).findSome? fun k => visit (ahead start k)

section
variable {start i : Fin n}

@[simp] theorem ahead_zero (start : Fin n) : ahead start 0 = start := by
  apply Fin.ext
  exact Nat.mod_eq_of_lt start.isLt

theorem ahead_around (start : Fin n) : ahead start n = start := by
  apply Fin.ext
  change (start.val+n)%n = start.val
  rw [Nat.add_mod_right]
  exact Nat.mod_eq_of_lt start.isLt

theorem next_ahead (start : Fin n) (k : Nat) : next (ahead start k) = ahead start (k+1) := by
  apply Fin.ext
  change ((start.val+k)%n+1)%n = (start.val+(k+1))%n
  rw [Nat.mod_add_mod,add_assoc]

theorem ahead_injective (first : j < n) (second : k < n) (same : ahead start j = ahead start k) : j = k := by
  have equal : (start.val+j)%n = (start.val+k)%n := congrArg Fin.val same
  have cancel : Nat.ModEq n j k := Nat.ModEq.add_left_cancel' start.val equal
  exact Nat.ModEq.eq_of_lt_of_lt cancel first second

theorem ahead_reaches (start i : Fin n) : ∃ k, k < n ∧ ahead start k = i := by
  refine ⟨(i.val+(n-start.val))%n,Nat.mod_lt _ start.pos,?_⟩
  apply Fin.ext
  change (start.val+(i.val+(n-start.val))%n)%n = i.val
  have sum : start.val+(i.val+(n-start.val)) = i.val+n := by
    omega
  rw [Nat.add_mod_mod,sum,Nat.add_mod_right]
  exact Nat.mod_eq_of_lt i.isLt

def Passed (start last i : Fin n) : Prop := ∃ j k, j < k ∧ k < n ∧ ahead start j = i ∧ ahead start k = last

end

section
variable {visit : Fin n → Option β} {start : Fin n}

theorem scan_from (turns k : Nat) (total : k+turns = n) (going : 0 < turns) : scan visit start turns (ahead start k) =
      some ((range' k turns).findSome? fun k => visit (ahead start k)) := by
  induction turns generalizing k with
  | zero => exact absurd going (lt_irrefl 0)
  | succ turns ih =>
    rw [scan,range'_succ,findSome?_cons]
    cases here : visit (ahead start k) with
    | some found => rfl
    | none =>
      rw [next_ahead]
      by_cases last : turns = 0
      · subst last
        have around : ahead start (k+1) = start := by
          rw [show k+1 = n from total]
          exact ahead_around start
        rw [if_pos around]
        rfl
      have away : ahead start (k+1) ≠ start := by
        intro same
        have zero : ahead start (k+1) = ahead start 0 := same.trans (ahead_zero start).symm
        exact Nat.succ_ne_zero k (ahead_injective (by omega) start.pos zero)
      rw [if_neg away]
      exact ih (k+1) (by omega) (by omega)

theorem scan_search (visit : Fin n → Option β) (start : Fin n) : scan visit start n start = some (search visit start) := by
  have whole : scan visit start n (ahead start 0) =
      some ((range' 0 n).findSome? fun k => visit (ahead start k)) := scan_from n 0 (zero_add n) start.pos
  rwa [ahead_zero,← range_eq_range'] at whole

theorem seek_from : seek visit turns (ahead start k) = (range' k turns).findSome? fun k => visit (ahead start k) := by
  induction turns generalizing k with
  | zero => rfl
  | succ turns ih =>
    rw [seek,range'_succ,findSome?_cons,next_ahead,ih]
    cases visit (ahead start k) with
    | some found | none => rfl

theorem seek_search (visit : Fin n → Option β) (start : Fin n) : seek visit n start = search visit start := by
  have whole : seek visit n (ahead start 0) = (range' 0 n).findSome? fun k => visit (ahead start k) := seek_from
  rwa [ahead_zero,← range_eq_range'] at whole

theorem search_map : search (fun i => (visit i).map change) start = (search visit start).map change := by
  unfold search
  rw [map_findSome?]
  rfl

theorem search_some (found : search visit start = some result) :
    ∃ k < n, visit (ahead start k) = some result ∧ ∀ j < k, visit (ahead start j) = none := by
  obtain ⟨before,k,behind,parts,here,none⟩ := findSome?_eq_some_iff.mp found
  have place : (range n)[before.length]? = some k := by rw [parts]; simp
  obtain ⟨inside,same⟩ := List.getElem?_eq_some_iff.mp place
  rw [List.getElem_range] at same
  rw [List.length_range] at inside
  refine ⟨k,same ▸ inside,here,?_⟩
  intro j less
  refine none j ?_
  have taken : before = (range n).take before.length := by rw [parts]; simp
  rw [taken,take_range,mem_range]
  omega

theorem search_first (inside : k < n) (found : visit (ahead start k) = some result)
    (earlier : ∀ j < k, visit (ahead start j) = none) : search visit start = some result := by
  cases searched : search visit start with
  | none =>
    have missed := findSome?_eq_none_iff.mp searched k (mem_range.mpr inside)
    rw [found] at missed
    cases missed
  | some other =>
    obtain ⟨j,_,here,before⟩ := search_some searched
    rcases lt_trichotomy j k with less | rfl | less
    · rw [earlier j less] at here
      cases here
    · rw [← here,found]
    · rw [before k less] at found
      cases found

end

section
variable (key : α → κ) (home : κ → Fin n) (cells : Fin n → Option α)

-- From its home to an item there is no empty position, and no key is there twice.
structure Chained : Prop where
  unbroken : ∀ i item, cells i = some item → ∀ j, Passed (home (key item)) i j → cells j ≠ none
  unique : ∀ i j item other, cells i = some item → cells j = some other → key item = key other → i = j

def Absent (wanted : κ) : Prop := ∀ i item, cells i = some item → key item ≠ wanted

-- No other item is reached through the position.
def Spare (i : Fin n) : Prop := ∀ j item, j ≠ i → cells j = some item → ¬Passed (home (key item)) j i

def contents : List α := (List.finRange n).filterMap cells

end

section
variable {key : α → κ} {home : κ → Fin n} {cells : Fin n → Option α}

theorem put_chained (chained : Chained key home cells) (absent : Absent key cells (key item)) (free : cells i = none)
    (inside : k < n) (reached : ahead (home (key item)) k = i)
    (earlier : ∀ j < k, cells (ahead (home (key item)) j) ≠ none) :
    Chained key home (update cells i (some item)) := by
  constructor
  · intro last other content j passed
    by_cases same : j = i
    · rw [same,update_self]
      exact Option.some_ne_none item
    rw [update_of_ne same]
    by_cases new : last = i
    · subst new
      rw [update_self] at content
      cases content
      obtain ⟨a,b,less,within,rfl,arrived⟩ := passed
      have index := ahead_injective within inside (arrived.trans reached.symm)
      exact earlier a (index ▸ less)
    · rw [update_of_ne new] at content
      exact chained.unbroken last other content j passed
  intro a b one two first second same
  by_cases left : a = i <;> by_cases right : b = i
  · rw [left,right]
  · rw [left,update_self] at first
    rw [update_of_ne right] at second
    cases first
    exact absurd same.symm (absent b two second)
  · rw [right,update_self] at second
    rw [update_of_ne left] at first
    cases second
    exact absurd same (absent a one first)
  · rw [update_of_ne left] at first
    rw [update_of_ne right] at second
    exact chained.unique a b one two first second same

theorem remove_chained (chained : Chained key home cells)
    (spare : Spare key home cells i) : Chained key home (update cells i none) := by
  have kept : ∀ j item, update cells i none j = some item → j ≠ i ∧ cells j = some item := by
    intro j item content
    by_cases same : j = i
    · rw [same,update_self] at content
      cases content
    · rw [update_of_ne same] at content
      exact ⟨same,content⟩
  constructor
  · intro last item content j passed
    obtain ⟨other,content⟩ := kept last item content
    have away : j ≠ i := fun same => spare last item other content (same ▸ passed)
    rw [update_of_ne away]
    exact chained.unbroken last item content j passed
  · intro a b one two first second same
    exact chained.unique a b one two (kept a one first).2 (kept b two second).2 same

end

section
variable {cells : Fin n → Option α}

theorem contents_mem : item ∈ contents cells ↔ ∃ i, cells i = some item := by
  simp [contents]

theorem contents_split (cells : Fin n → Option α) : ∃ before behind : List (Fin n),
    contents cells = before.filterMap cells++(cells i).toList++behind.filterMap cells ∧
    ∀ content, contents (update cells i content) = before.filterMap cells++content.toList++behind.filterMap cells := by
  obtain ⟨before,behind,parts⟩ := append_of_mem (mem_finRange i)
  have nodup := nodup_finRange n
  rw [parts] at nodup
  have others : ∀ j ∈ before++behind, j ≠ i := by
    intro j mem same
    subst same
    exact (nodup_cons.mp (nodup_middle.mp nodup)).1 mem
  have whole : ∀ other : Fin n → Option α, contents other =
      before.filterMap other++(other i).toList++behind.filterMap other := by
    intro other
    unfold contents
    rw [parts,filterMap_append,filterMap_cons]
    cases other i <;> simp
  refine ⟨before,behind,whole cells,?_⟩
  intro content
  have left : before.filterMap (update cells i content) = before.filterMap cells :=
    filterMap_congr fun j mem => update_of_ne (others j (mem_append_left _ mem)) _ _
  have right : behind.filterMap (update cells i content) = behind.filterMap cells :=
    filterMap_congr fun j mem => update_of_ne (others j (mem_append_right _ mem)) _ _
  rw [whole,update_self,left,right]

theorem contents_put (free : cells i = none) :
    (contents (update cells i (some item))).Perm (item :: contents cells) := by
  obtain ⟨before,behind,old,new⟩ := contents_split cells
  rw [old,new,free]
  simp

theorem contents_removed (here : cells i = some item) :
    (contents cells).Perm (item :: contents (update cells i none)) := by
  obtain ⟨before,behind,old,new⟩ := contents_split cells
  rw [old,new,here]
  simp

theorem contents_room (few : (contents cells).length < n) : ∃ i, cells i = none := by
  by_contra full
  have some : ∀ i, ∃ item, cells i = some item := fun i => Option.ne_none_iff_exists'.mp fun none => full ⟨i,none⟩
  have all : (contents cells).length = (finRange n).length := by
    unfold contents
    rw [length_filterMap_eq_countP,countP_eq_length]
    intro i _
    obtain ⟨item,content⟩ := some i
    rw [content]
    rfl
  rw [length_finRange] at all
  omega

end

section
variable [DecidableEq κ] (key : α → κ) (home : κ → Fin n) (cells : Fin n → Option α)

def stop (wanted : κ) (i : Fin n) : Option (Fin n) :=
  match cells i with
  | none => some i
  | some item => if key item = wanted then some i else none

def place (wanted : κ) : Option (Fin n) := search (stop key cells wanted) (home wanted)

variable {key home cells}

theorem stop_here (stopped : stop key cells wanted i = some found) :
    found = i ∧ ∀ item, cells i = some item → key item = wanted := by
  unfold stop at stopped
  cases content : cells i with
  | none =>
    rw [content] at stopped
    refine ⟨(Option.some.inj stopped).symm,?_⟩
    intro item held
    cases held
  | some item =>
    simp only [content] at stopped
    split at stopped
    · rename_i same
      refine ⟨(Option.some.inj stopped).symm,?_⟩
      intro other held
      rwa [← Option.some.inj held]
    · cases stopped

theorem place_stops (found : place key home cells wanted = some i) :
    (∀ item, cells i = some item → key item = wanted) ∧ ∃ k, k < n ∧ ahead (home wanted) k = i ∧
      ∀ j < k, stop key cells wanted (ahead (home wanted) j) = none := by
  obtain ⟨k,inside,here,earlier⟩ := search_some found
  obtain ⟨same,held⟩ := stop_here here
  rw [← same] at held
  exact ⟨held,k,inside,same.symm,earlier⟩

theorem place_present (chained : Chained key home cells) (here : cells i = some item) (has : key item = wanted) :
    place key home cells wanted = some i := by
  obtain ⟨k,inside,reached⟩ := ahead_reaches (home wanted) i
  refine search_first inside ?_ ?_
  · rw [reached]
    simp [stop,here,has]
  intro j less
  have occupied := chained.unbroken i item here (ahead (home wanted) j) ⟨j,k,less,inside,by rw [has],by rw [has,reached]⟩
  cases other : cells (ahead (home wanted) j) with
  | none => exact absurd other occupied
  | some found =>
    have different : key found ≠ wanted := by
      intro same
      have equal := chained.unique _ _ _ _ other here (same.trans has.symm)
      rw [← reached] at equal
      have index := ahead_injective (by omega) inside equal
      omega
    simp [stop,other,different]

theorem place_absent (absent : Absent key cells wanted) (free : cells empty = none) :
    ∃ i, place key home cells wanted = some i ∧ cells i = none ∧ ∃ k, k < n ∧ ahead (home wanted) k = i ∧
      ∀ j < k, cells (ahead (home wanted) j) ≠ none := by
  cases found : place key home cells wanted with
  | none =>
    obtain ⟨k,inside,reached⟩ := ahead_reaches (home wanted) empty
    have missed := findSome?_eq_none_iff.mp found k (mem_range.mpr inside)
    simp [stop,reached,free] at missed
  | some i =>
    obtain ⟨held,k,inside,reached,earlier⟩ := place_stops found
    refine ⟨i,rfl,?_,k,inside,reached,?_⟩
    · cases content : cells i with
      | none => rfl
      | some item => exact absurd (held item content) (absent i item content)
    · intro j less none
      have missed := earlier j less
      simp [stop,none] at missed

theorem remove_hides (passed : Passed (home (key item)) j i) :
    place key home (update cells i none) (key item) ≠ some j := by
  intro found
  obtain ⟨a,b,less,inside,reached,arrived⟩ := passed
  obtain ⟨_,k,within,here,earlier⟩ := place_stops found
  have index := ahead_injective within inside (here.trans arrived.symm)
  have missed := earlier a (index ▸ less)
  rw [reached] at missed
  simp [stop] at missed

end

end Foundations.OpenAddressing
