import SipxExternals.NetSnmpSubtreeLoads

namespace NetSnmp.AgentRegistry
open Foundations.Heaps Foundations.Lex NetSnmp.AsnTypes List
open Option (bind_eq_bind bind_some)

variable {ρ : Type} {r r' : Registry ρ} {has : Oid → Entry ρ → Prop} {first middle last name : Oid} {left right slices : List (Slice ρ)}
variable {s : Slice ρ} {e : Entry ρ} {priority : Int}

section

section
variable (rep : Represents r (left++s :: right))
include rep

theorem column_enough : s.column.length ≤ r.heap.fresh := by
  have whole := rep.distinct
  rw [allAddresses_append,allAddresses_cons] at whole
  have bound := addresses_bound (nodup_append.mp (nodup_append.mp whole).2.1).1
    fun b mem => rep.below b (column_listed left right s b mem)
  simpa [addresses] using bound

theorem search_column (column : s.column = front++back)
    (passed : ∀ p ∈ front, ¬(p.2.name = name ∧ (p.2.priority : Int) = priority))
    (found : ∀ p ∈ back.head?, p.2.name = name ∧ (p.2.priority : Int) = priority) :
    skipWhile r.heap (fun other => !registered name priority other) r.heap.fresh none (headOr none s.column) =
      some (lastOr none front,headOr none back) := by
  obtain ⟨_,held,_⟩ := linked_append.mp rep.linked
  have cells := held.column
  have enough := column_enough rep
  rw [column] at cells enough ⊢
  have reads : ∀ (node : Subtree ρ) (f : Entry ρ), node.name = f.name → node.priority = f.priority →
      (!registered name priority node) = !decide (f.name = name ∧ (f.priority : Int) = priority) := by
    intro node f same equal
    rw [registered,same,equal]
  refine skipWhile_column reads none cells (fun p mem => ?_) (fun p mem => ?_) enough
  · rw [decide_eq_false (passed p mem)]
    rfl
  · rw [decide_eq_true (found p mem)]
    rfl

theorem child_missing (missing : ∀ f ∈ entries s, ¬(f.name = name ∧ (f.priority : Int) = priority)) :
    skipWhile r.heap (fun other => !registered name priority other) r.heap.fresh none (headOr none s.column) =
      some (lastOr none s.column,none) :=
  search_column rep (append_nil s.column).symm (fun p mem => missing p.2 (mem_map_of_mem mem)) fun _ wrong => by cases wrong

end

variable (rep : Represents r (left++s :: right)) (ordered : (entries s).Pairwise Before) (mem : e ∈ entries s)
include rep ordered mem

section
variable (sole : ∀ f ∈ entries s, f.name = e.name → f.priority = e.priority → f = e)
include sole

theorem child_found :
    ∃ front x back, s.column = front++(x,e) :: back ∧ (∀ f, f ∈ entries ⟨s.start,s.ending,front++back⟩ ↔ f ∈ entries s ∧ f ≠ e) ∧
      skipWhile r.heap (fun other => !registered e.name e.priority other) r.heap.fresh none (headOr none s.column) =
        some (lastOr none front,some x) := by
  obtain ⟨⟨x,f⟩,inside,same⟩ := mem_map.mp mem
  obtain rfl : f = e := same
  obtain ⟨front,back,column⟩ := append_of_mem inside
  have order := entries_ordered.mp ordered
  rw [column] at order
  obtain ⟨_,behind,across⟩ := pairwise_append.mp order
  have irreflexive : ∀ f : Entry ρ, ¬Before f f := fun f less => before_asymm less less
  have frontOther : ∀ p ∈ front, p.2 ≠ f := fun p early equal => irreflexive f (equal ▸ across p early (x,f) (.head _))
  have backOther : ∀ p ∈ back, p.2 ≠ f := fun p late equal => irreflexive f (equal ▸ (pairwise_cons.mp behind).1 p late)
  refine ⟨front,x,back,column,fun g => ?_,?_⟩
  · simp only [entries,column,map_append,map_cons,mem_append,mem_cons,mem_map]
    constructor
    · rintro (⟨p,early,rfl⟩ | ⟨p,late,rfl⟩)
      · exact ⟨.inl ⟨p,early,rfl⟩,frontOther p early⟩
      · exact ⟨.inr (.inr ⟨p,late,rfl⟩),backOther p late⟩
    rintro ⟨early | same | late,other⟩
    · exact .inl early
    · exact absurd same other
    · exact .inr late
  · refine search_column rep column (fun p early same => ?_) fun p head => ?_
    · have listed : p.2 ∈ entries s := by
        rw [entries,column]
        exact mem_map_of_mem (mem_append_left _ early)
      exact frontOther p early (sole p.2 listed same.1 (Int.ofNat.inj same.2))
    · cases head
      exact ⟨rfl,rfl⟩

theorem child_dropped (more : ∃ f ∈ entries s, f ≠ e) :
    ∃ r' prev x column, skipWhile r.heap (fun other => !registered e.name e.priority other) r.heap.fresh none (headOr none s.column) =
        some (prev,some x) ∧ netsnmpSubtreeUnload r x prev = some r' ∧ Represents r' (left++⟨s.start,s.ending,column⟩ :: right) ∧
      (∀ f, f ∈ entries ⟨s.start,s.ending,column⟩ ↔ f ∈ entries s ∧ f ≠ e) ∧ (entries ⟨s.start,s.ending,column⟩).Pairwise Before ∧
      x ∉ allAddresses (left++⟨s.start,s.ending,column⟩ :: right) ∧
      (∃ node, r'.heap.cells x = some node ∧ node.next = headAfter none right) ∧ r'.heap.fresh = r.heap.fresh ∧
      (allAddresses (left++⟨s.start,s.ending,column⟩ :: right)).length < (allAddresses (left++s :: right)).length ∧
      ∀ a ∈ allAddresses (left++⟨s.start,s.ending,column⟩ :: right), a ∈ allAddresses (left++s :: right) := by
  obtain ⟨front,x,back,column,others,search⟩ := child_found rep ordered mem sole
  obtain ⟨_,away,listed⟩ := removed_addresses rep column
  have filled : front++back ≠ [] := by
    obtain ⟨f,inside,other⟩ := more
    have listed := (others f).mpr ⟨inside,other⟩
    intro empty
    rw [entries,empty] at listed
    cases listed
  obtain ⟨r',unloaded,rep',fresh,kept⟩ := unload_slices rep column filled
  obtain ⟨_,held,_⟩ := linked_append.mp rep.linked
  have cells := held.column
  rw [column] at cells
  obtain ⟨_,⟨node,here,shown⟩,_⟩ := columnAt_append.mp cells
  refine ⟨r',_,x,_,search,unloaded,rep',others,?_,away,⟨node,(kept x away).trans here,shown.next⟩,fresh,?_,listed⟩
  · rw [entries_ordered] at ordered ⊢
    rw [column] at ordered
    exact ordered.sublist (List.Sublist.append (List.Sublist.refl front) (sublist_cons_self _ back))
  · rw [allAddresses_append,allAddresses_cons,allAddresses_append,allAddresses_cons,column]
    simp only [addresses,length_append,length_map,length_cons]
    omega

end

end

def without (has : Oid → Entry ρ → Prop) (e : Entry ρ) : Oid → Entry ρ → Prop := fun o f => has o f ∧ f ≠ e

section
variable (rep : Represents r slices) (good : Good has first last slices)
include rep good

theorem find_outside (begins : subtree = none ∨ subtree = r.first) (out : ¬(first ≤ name ∧ name < last)) :
    netsnmpSubtreeFind r name subtree = some none := by
  rcases eq_nil_or_concat slices with rfl | ⟨left,s,rfl⟩
  · rw [netsnmpSubtreeFind,findPrev_slices rep begins]
    rfl
  rw [concat_eq_append] at *
  by_cases low : first ≤ name
  · have high : last ≤ name := not_lt.mp fun less => out ⟨low,less⟩
    have within := tiled_within good.tiled
    have ends := (within s (mem_append_right _ (.head _))).2
    rw [find_slice rep begins (fun t mem => ?_) (ends.1.le.trans (ends.2.trans high)) (fun _ wrong => by cases wrong),
      if_neg (not_lt.mpr (ends.2.trans high))]
    have inner := (within t (mem_append_left _ mem)).2
    exact inner.1.le.trans (inner.2.trans high)
  have none_taken : (left++[s]).takeWhile (fun t => t.start ≤ name) = [] := by
    have above : ∀ t ∈ left++[s], ¬t.start ≤ name := fun t mem below =>
      low ((tiled_within good.tiled t mem).1.trans below)
    cases left with
    | nil => exact takeWhile_cons_of_neg (by simpa using above s (by simp))
    | cons t left => exact takeWhile_cons_of_neg (by simpa using above t (by simp))
  rw [netsnmpSubtreeFind,findPrev_slices rep begins,none_taken]
  rfl

theorem round_none (missing : ∀ f, has name f → ¬(f.name = name ∧ (f.priority : Int) = priority)) :
    unregisterRound r name priority = some none := by
  by_cases inside : first ≤ name ∧ name < last
  · obtain ⟨left,s,right,rfl,low,high⟩ := tiled_found good.tiled inside.1 inside.2
    obtain ⟨_,_,_,serves,_⟩ := good_cons.mp (good_append.mp good).choose_spec.2
    obtain ⟨a,head⟩ := head_filled rep
    have found := find_good rep good (.inr rfl) low high
    have search := child_missing rep fun f mem => missing f ((serves name low high f).mpr mem)
    rw [head] at found search
    simp [unregisterRound,found,search]
  · simp [unregisterRound,find_outside rep good (.inr rfl) inside]

end

section
variable (sole : ∀ o f, has o f → f.name = e.name → f.priority = e.priority → f = e)
variable (more : ∀ o, first ≤ o → o < last → ∃ f, has o f ∧ f ≠ e)
include sole more

-- The slices that follow, by induction on them: each one that begins below the end of the
-- registration holds it.
theorem unloadFollowing_run : ∀ {right left : List (Slice ρ)} {r : Registry ρ} {middle : Oid} {fuel : Nat},
    Represents r (left++right) → Good (without has e) first middle left → Good has middle last right →
    (∀ o, middle ≤ o → o < last → (has o e ↔ o < high)) → right.length ≤ fuel →
    ∃ r' slices', unloadFollowing e.name e.priority fuel r (headAfter none right) = some r' ∧ Represents r' slices' ∧
      Good (without has e) first last slices' ∧ r'.heap.fresh = r.heap.fresh ∧
      (allAddresses slices').length ≤ (allAddresses (left++right)).length ∧
      ∀ a ∈ allAddresses slices', a ∈ allAddresses (left++right) := by
  intro right
  induction right with
  | nil =>
    intro left r middle fuel rep before behind known _
    obtain rfl : middle = last := behind.tiled
    rw [append_nil] at rep ⊢
    refine ⟨r,left,?_,rep,before,rfl,le_rfl,fun _ inside => inside⟩
    rw [headAfter,unloadFollowing]
  | cons t right ih =>
    intro left r middle fuel rep before behind known enough
    obtain ⟨a,head⟩ := head_filled rep
    obtain ⟨begins,order,ordered,serves,rest⟩ := good_cons.mp behind
    have below : middle < last := by
      have inner := tiled_within behind.tiled t (.head _)
      exact (begins ▸ inner.2.1).trans_le inner.2.2
    have start := tiled_le before.tiled
    obtain ⟨fuel,rfl⟩ : ∃ more, fuel = more+1 := ⟨fuel-1,by simp only [length_cons] at enough; omega⟩
    have unfolded : headAfter none (t :: right) = some a := head
    obtain ⟨_,held,_⟩ := linked_append.mp rep.linked
    obtain ⟨b,f,_,node,column,here,shown,_⟩ := held_head held
    obtain rfl : b = a := by
      rw [column] at head
      exact Option.some.inj head
    have atStart := serves t.start le_rfl order
    by_cases holds : middle < high
    · have mem : e ∈ entries t := (atStart e).mp (begins.symm ▸ (known middle le_rfl below).mpr holds)
      have soleHere : ∀ f ∈ entries t, f.name = e.name → f.priority = e.priority → f = e := fun f inside =>
        sole t.start f ((atStart f).mpr inside)
      have moreHere : ∃ f ∈ entries t, f ≠ e := by
        obtain ⟨f,present,other⟩ := more middle start below
        exact ⟨f,(atStart f).mp (begins.symm ▸ present),other⟩
      obtain ⟨r1,prev,x,column',search,unloaded,rep1,others,ordered1,away,_,fresh,shorter,listed⟩ :=
        child_dropped rep ordered mem soleHere moreHere
      have freed : Represents ⟨r1.heap.free x,r1.first⟩ ((left++[⟨t.start,t.ending,column'⟩])++right) := by
        rw [append_assoc]
        refine represents_frame rep1 le_rfl fun y inside => ?_
        have apart : y ≠ x := fun equal => away (equal ▸ inside)
        simp [apart]
      have good1 : Good (without has e) first t.ending (left++[⟨t.start,t.ending,column'⟩]) := by
        refine good_append.mpr ⟨middle,before,good_cons.mpr ⟨begins,order,ordered1,fun o low high f => ?_,⟨rfl,by simp,by simp⟩⟩⟩
        rw [others f,← serves o low high f]
        rfl
      obtain ⟨r2,slices2,run,rep2,good2,fresh2,shorter2,listed2⟩ := ih freed good1 rest
        (fun o low => known o ((begins ▸ order).le.trans low)) (Nat.le_of_succ_le_succ enough)
      rw [append_assoc] at shorter2 listed2
      refine ⟨r2,slices2,?_,rep2,good2,fresh2.trans fresh,shorter2.trans shorter.le,fun y inside => listed y (listed2 y inside)⟩
      rw [unfolded,unloadFollowing,here]
      simp only [bind_eq_bind,bind_some]
      rw [← head,search]
      simp only [bind_some]
      rw [unloaded,bind_some,shown.next]
      exact run
    · have gone : ∀ o, middle ≤ o → o < last → ∀ f, has o f ↔ without has e o f := by
        intro o low high f
        refine ⟨fun present => ⟨present,fun equal => ?_⟩,fun present => present.1⟩
        exact holds (low.trans_lt ((known o low high).mp (equal ▸ present)))
      have missing : ∀ f ∈ entries t, ¬(f.name = e.name ∧ (f.priority : Int) = e.priority) := by
        intro f inside same
        have present := (atStart f).mpr inside
        have equal := sole t.start f present same.1 (Int.ofNat.inj same.2)
        exact holds ((known middle le_rfl below).mp (begins ▸ equal ▸ present))
      refine ⟨r,left++t :: right,?_,rep,good_append.mpr ⟨middle,before,good_other behind gone⟩,rfl,le_rfl,fun _ inside => inside⟩
      rw [unfolded,unloadFollowing,here]
      rw [← head,child_missing rep missing]
      rfl

theorem round_ok (rep : Represents r slices) (good : Good has first last slices) (low : first ≤ e.name) (proper : e.name < high)
    (inside : high ≤ last) (known : ∀ o, has o e ↔ e.name ≤ o ∧ o < high) : ∃ r' x slices',
    unregisterRound r e.name e.priority = some (some (r',x)) ∧ Represents r' slices' ∧ Good (without has e) first last slices' ∧
      r'.heap.fresh = r.heap.fresh ∧ x ∉ allAddresses slices' ∧ (allAddresses slices').length < (allAddresses slices).length := by
  obtain ⟨left,s,right,rfl,starts,ends⟩ := tiled_found good.tiled low (proper.trans_le inside)
  obtain ⟨middle,before,behind⟩ := good_append.mp good
  obtain ⟨begins,order,ordered,serves,rest⟩ := good_cons.mp behind
  have atName := serves e.name starts ends
  have found := find_good rep good (.inr rfl) starts ends
  obtain ⟨a,head⟩ := head_filled rep
  have mem : e ∈ entries s := (atName e).mp ((known e.name).mpr ⟨le_rfl,proper⟩)
  have moreHere : ∃ f ∈ entries s, f ≠ e := by
    obtain ⟨f,present,other⟩ := more e.name low (proper.trans_le inside)
    exact ⟨f,(atName f).mp present,other⟩
  obtain ⟨r1,prev,x,column,search,unloaded,rep1,others,ordered1,away,⟨node,cell,next⟩,fresh,shorter,_⟩ :=
    child_dropped rep ordered mem (fun f inside => sole e.name f ((atName f).mpr inside)) moreHere
  have shape : left++⟨s.start,s.ending,column⟩ :: right = (left++[⟨s.start,s.ending,column⟩])++right := by simp
  rw [shape] at rep1 away shorter
  have good1 : Good (without has e) first s.ending (left++[⟨s.start,s.ending,column⟩]) := by
    refine good_append.mpr ⟨middle,good_other before fun o _ below f => ?_,good_cons.mpr ⟨begins,order,ordered1,fun o low high f => ?_,
      ⟨rfl,by simp,by simp⟩⟩⟩
    · refine ⟨fun present => ⟨present,fun equal => ?_⟩,fun present => present.1⟩
      exact absurd ((known o).mp (equal ▸ present)).1 (not_le.mpr (below.trans_le (begins ▸ starts)))
    · rw [others f,← serves o low high f]
      rfl
  have enough : right.length ≤ r1.heap.fresh := by
    have bound := slices_bound rep1
    rw [length_append] at bound
    omega
  obtain ⟨r2,slices2,run,rep2,good2,fresh2,shorter2,listed2⟩ := unloadFollowing_run sole more rep1 good1 rest
    (fun o low _ => by rw [known o]; exact and_iff_right (ends.le.trans low)) enough
  refine ⟨r2,x,slices2,?_,rep2,good2,fresh2.trans fresh,fun inside => away (listed2 x inside),shorter2.trans_lt shorter⟩
  rw [head] at found search
  simp only [unregisterRound,bind_eq_bind,bind_some,found,search,unloaded,cell]
  rw [next,run]
  rfl

end

end NetSnmp.AgentRegistry
