import SipxExternals.NetSnmpSubtreeChanges

namespace NetSnmp.AgentRegistry
open Foundations.Heaps Foundations.Lex NetSnmp.AsnTypes List
open Option (bind_eq_bind bind_some)

section
variable {ρ : Type} {has has' : Oid → Entry ρ → Prop} {first middle last : Oid} {left right slices : List (Slice ρ)} {s : Slice ρ}

def Tiled : Oid → Oid → List (Slice ρ) → Prop
  | first,last,[] => first = last
  | first,last,s :: rest => s.start = first ∧ s.start < s.ending ∧ Tiled s.ending last rest

def entries (s : Slice ρ) : List (Entry ρ) := s.column.map Prod.snd

-- What a slice holds is what belongs to each of its OIDs.
structure Good (has : Oid → Entry ρ → Prop) (first last : Oid) (slices : List (Slice ρ)) : Prop where
  tiled : Tiled first last slices
  ordered : ∀ s ∈ slices, (entries s).Pairwise Before
  serves : ∀ s ∈ slices, ∀ o, s.start ≤ o → o < s.ending → ∀ e, has o e ↔ e ∈ entries s

theorem tiled_append : ∀ {left : List (Slice ρ)} {first : Oid}, Tiled first last (left++right) ↔
    ∃ middle, Tiled first middle left ∧ Tiled middle last right
  | [],first => by simp [Tiled]
  | s :: left,first => by
    have deeper : Tiled s.ending last (left++right) ↔ ∃ middle, Tiled s.ending middle left ∧ Tiled middle last right := tiled_append
    simp [Tiled,deeper,exists_and_left,and_assoc]

theorem tiled_le : ∀ {slices : List (Slice ρ)} {first : Oid}, Tiled first last slices → first ≤ last
  | [],_,tiled => le_of_eq tiled
  | _ :: _,_,⟨begins,order,rest⟩ => (begins ▸ order).le.trans (tiled_le rest)

theorem tiled_within : ∀ {slices : List (Slice ρ)} {first : Oid}, Tiled first last slices →
    ∀ t ∈ slices, first ≤ t.start ∧ t.start < t.ending ∧ t.ending ≤ last
  | s :: slices,first,⟨begins,order,rest⟩,t,mem => by
    rcases mem_cons.mp mem with rfl | later
    · exact ⟨begins.ge,order,tiled_le rest⟩
    · obtain ⟨low,inner,high⟩ := tiled_within rest t later
      exact ⟨(begins ▸ order).le.trans low,inner,high⟩

theorem tiled_found : ∀ {slices : List (Slice ρ)} {first : Oid}, Tiled first last slices → ∀ {o : Oid}, first ≤ o → o < last →
    ∃ left s right, slices = left++s :: right ∧ s.start ≤ o ∧ o < s.ending
  | [],_,tiled,o,low,high => absurd (low.trans_lt high) (by rw [show _ = _ from tiled]; exact lt_irrefl _)
  | s :: slices,_,⟨begins,order,rest⟩,o,low,high => by
    by_cases inside : o < s.ending
    · exact ⟨[],s,slices,rfl,begins ▸ low,inside⟩
    · obtain ⟨left,t,right,parts,below,above⟩ := tiled_found rest (not_lt.mp inside) high
      exact ⟨s :: left,t,right,by rw [parts]; rfl,below,above⟩

theorem good_append : Good has first last (left++right) ↔ ∃ middle, Good has first middle left ∧ Good has middle last right := by
  constructor
  · intro good
    obtain ⟨middle,before,behind⟩ := tiled_append.mp good.tiled
    obtain ⟨ordered,ordered'⟩ := forall_mem_append.mp good.ordered
    obtain ⟨serves,serves'⟩ := forall_mem_append.mp good.serves
    exact ⟨middle,⟨before,ordered,serves⟩,⟨behind,ordered',serves'⟩⟩
  rintro ⟨middle,before,behind⟩
  exact ⟨tiled_append.mpr ⟨middle,before.tiled,behind.tiled⟩,forall_mem_append.mpr ⟨before.ordered,behind.ordered⟩,
    forall_mem_append.mpr ⟨before.serves,behind.serves⟩⟩

theorem good_cons : Good has first last (s :: right) ↔ s.start = first ∧ s.start < s.ending ∧ (entries s).Pairwise Before ∧
    (∀ o, s.start ≤ o → o < s.ending → ∀ e, has o e ↔ e ∈ entries s) ∧ Good has s.ending last right := by
  constructor
  · intro good
    obtain ⟨begins,order,rest⟩ := good.tiled
    obtain ⟨sorted,ordered⟩ := forall_mem_cons.mp good.ordered
    obtain ⟨here,serves⟩ := forall_mem_cons.mp good.serves
    exact ⟨begins,order,sorted,here,rest,ordered,serves⟩
  rintro ⟨begins,order,sorted,serves,rest⟩
  exact ⟨⟨begins,order,rest.tiled⟩,forall_mem_cons.mpr ⟨sorted,rest.ordered⟩,forall_mem_cons.mpr ⟨serves,rest.serves⟩⟩

theorem good_other (good : Good has first last slices) (same : ∀ o, first ≤ o → o < last → ∀ e, has o e ↔ has' o e) :
    Good has' first last slices := by
  refine ⟨good.tiled,good.ordered,fun s mem o low high e => ?_⟩
  obtain ⟨begins,_,ends⟩ := tiled_within good.tiled s mem
  rw [← same o (begins.trans low) (high.trans_le ends) e]
  exact good.serves s mem o low high e

section
variable (good : Good has first last (left++s :: right))
include good

theorem good_replace (part : Good has s.start s.ending new) : Good has first last (left++new++right) := by
  obtain ⟨middle,before,behind⟩ := good_append.mp good
  obtain ⟨begins,_,_,_,rest⟩ := good_cons.mp behind
  rw [append_assoc]
  exact good_append.mpr ⟨middle,before,good_append.mpr ⟨s.ending,begins ▸ part,rest⟩⟩

omit good in
theorem entries_ordered : (entries s).Pairwise Before ↔ Ordered s.column := pairwise_map

omit good in
theorem entries_renumber : entries ⟨start,ending,renumber n column⟩ = column.map Prod.snd := renumber_entries n column

theorem good_split (low : s.start < name) (high : name < s.ending) :
    Good has first last (left++⟨s.start,name,s.column⟩ :: ⟨name,s.ending,renumber n s.column⟩ :: right) := by
  obtain ⟨_,_,behind⟩ := good_append.mp good
  obtain ⟨_,_,sorted,serves,_⟩ := good_cons.mp behind
  have part : Good has s.start s.ending [⟨s.start,name,s.column⟩,⟨name,s.ending,renumber n s.column⟩] := by
    refine good_cons.mpr ⟨rfl,low,sorted,fun o begins ends => serves o begins (ends.trans high),
      good_cons.mpr ⟨rfl,high,?_,fun o begins ends => ?_,⟨rfl,by simp,by simp⟩⟩⟩
    · rw [entries_renumber]
      exact sorted
    · rw [entries_renumber]
      exact serves o (low.le.trans begins) ends
  have whole := good_replace good part
  rw [append_assoc] at whole
  exact whole

def also (has : Oid → Entry ρ → Prop) (start ending : Oid) (e : Entry ρ) : Oid → Entry ρ → Prop :=
  fun o f => has o f ∨ (start ≤ o ∧ o < ending ∧ f = e)

theorem good_insert (column : s.column = front++back) (ordered : Ordered (front++(x,e) :: back)) :
    Good (also has s.start s.ending e) first last (left++⟨s.start,s.ending,front++(x,e) :: back⟩ :: right) := by
  obtain ⟨middle,before,behind⟩ := good_append.mp good
  obtain ⟨begins,order,_,serves,rest⟩ := good_cons.mp behind
  refine good_append.mpr ⟨middle,good_other before fun o _ high f => ?_,good_cons.mpr ⟨begins,order,entries_ordered.mpr ordered,
    fun o low high f => ?_,good_other rest fun o low _ f => ?_⟩⟩
  · have outside : ¬s.start ≤ o := not_le.mpr (begins ▸ high)
    simp [also,outside]
  · have old := serves o low high f
    simp only [entries,column,map_append,mem_append,map_cons,mem_cons,also,low,high,true_and] at old ⊢
    tauto
  · have outside : ¬o < s.ending := not_lt.mpr low
    simp [also,outside]

end

end

section
variable {ρ : Type} {r r' r2 : Registry ρ} {has : Oid → Entry ρ → Prop} {first last : Oid} {left right slices slices' slices2 : List (Slice ρ)}
variable {s : Slice ρ} {x : Nat} {node : Subtree ρ} {e : Entry ρ}

structure Kept (touched : List Nat) (r r' : Registry ρ) (slices slices' : List (Slice ρ)) : Prop where
  fresh : r.heap.fresh ≤ r'.heap.fresh
  cells : ∀ y < r.heap.fresh, y ∉ touched → y ∉ allAddresses slices → r'.heap.cells y = r.heap.cells y
  listed : ∀ a ∈ allAddresses slices', a ∈ allAddresses slices ∨ a ∈ touched ∨ r.heap.fresh ≤ a

abbrev Reshaped (touched : List Nat) (r r' : Registry ρ) (has : Oid → Entry ρ → Prop) (first last : Oid)
    (slices slices' : List (Slice ρ)) : Prop :=
  Represents r' slices' ∧ Good has first last slices' ∧ Kept touched r r' slices slices'

theorem kept_away (kept : Kept touched r r' slices slices') (small : x < r.heap.fresh) (out : x ∉ touched)
    (away : x ∉ allAddresses slices) : x ∉ allAddresses slices' := fun mem => by
  rcases kept.listed x mem with old | new | large
  · exact away old
  · exact out new
  · omega

theorem kept_trans (one : Kept touched r r' slices slices') (two : Kept later r' r2 slices' slices2)
    (inside : ∀ a ∈ later, a ∈ touched ∨ r.heap.fresh ≤ a) : Kept touched r r2 slices slices2 where
  fresh := one.fresh.trans two.fresh
  cells y small out away := by
    have out' : y ∉ later := fun mem => (inside y mem).elim out (by omega)
    rw [two.cells y (small.trans_le one.fresh) out' (kept_away one small out away),one.cells y small out away]
  listed a mem := by
    rcases two.listed a mem with old | new | large
    · exact one.listed a old
    · exact .inr (inside a new)
    · exact .inr (.inr (one.fresh.trans large))

theorem find_good (rep : Represents r (left++s :: right)) (good : Good has first last (left++s :: right))
    (begins : subtree = none ∨ subtree = r.first) (low : s.start ≤ name) (high : name < s.ending) :
    netsnmpSubtreeFind r name subtree = some (headOr none s.column) := by
  obtain ⟨middle,before,behind⟩ := good_append.mp good
  obtain ⟨start,_,_,_,rest⟩ := good_cons.mp behind
  rw [find_slice rep begins (fun t mem => ?_) low (fun t mem => ?_),if_pos high]
  · obtain ⟨_,inner,below⟩ := tiled_within before.tiled t mem
    exact (inner.le.trans below).trans (start ▸ low)
  cases right with
  | nil => cases mem
  | cons u right =>
    cases mem
    rw [rest.tiled.1]
    exact high

theorem split_listed
    (mem : a ∈ allAddresses (left++⟨s.start,name,s.column⟩ :: ⟨name,s.ending,renumber r.heap.fresh s.column⟩ :: right)) :
    a ∈ allAddresses (left++s :: right) ∨ r.heap.fresh ≤ a := by
  rw [allAddresses_append,allAddresses_cons,allAddresses_cons,mem_append,mem_append,mem_append] at mem
  rw [allAddresses_append,allAddresses_cons,mem_append,mem_append]
  rcases mem with early | column | new | late
  · exact .inl (.inl early)
  · exact .inl (.inr (.inl column))
  · exact .inr (mem_renumber.mp new).1
  · exact .inl (.inr (.inr late))

section
variable (rep : Represents r (left++s :: right))
include rep

theorem split_good (good : Good has first last (left++s :: right))
    (low : s.start < name) (high : name < s.ending) (head : headOr none s.column = some a) :
    ∃ h', netsnmpSubtreeSplit r.heap a name = some (h',some r.heap.fresh) ∧
      Reshaped [] r ⟨h',r.first⟩ has first last (left++s :: right)
        (left++⟨s.start,name,s.column⟩ :: ⟨name,s.ending,renumber r.heap.fresh s.column⟩ :: right) := by
  obtain ⟨h',run,split,fresh,others⟩ := split_slices rep high.le head
  refine ⟨h',run,split,good_split good low high,fresh,fun y small _ away => others y small away,fun a mem => ?_⟩
  exact (split_listed mem).imp_right .inr

theorem head_filled : ∃ a, headOr none s.column = some a := by
  obtain ⟨_,held,_⟩ := linked_append.mp rep.linked
  obtain ⟨a,e,rest,_,column,_⟩ := held_head held
  exact ⟨a,by rw [column]; rfl⟩

theorem head_cell (head : headOr none s.column = some a) :
    ∃ tree, r.heap.cells a = some tree ∧ tree.start = s.start ∧ tree.ending = s.ending := by
  obtain ⟨_,held,_⟩ := linked_append.mp rep.linked
  obtain ⟨b,e,rest,tree,column,here,shown,_⟩ := held_head held
  rw [column] at head
  cases head
  exact ⟨tree,here,shown.start,shown.ending⟩

end

def loadAt (fuel : Nat) (r : Registry ρ) (newSub tree1 : Nat) (ending treeEnd : Oid) : Option (Registry ρ × Code) :=
  if ending < treeEnd then (netsnmpSubtreeSplit r.heap tree1 ending).bind fun split => mergeChild ⟨split.1,r.first⟩ newSub tree1
  else if ending = treeEnd then mergeChild r newSub tree1
  else
    (netsnmpSubtreeSplit r.heap newSub treeEnd).bind fun split =>
      (subtreeLoad fuel ⟨split.1,r.first⟩ (some newSub)).bind fun out =>
        if out.2 ≠ .registeredOk then
          split.2.bind fun new2 => (netsnmpRemoveSubtree out.1 new2).bind fun r => some (⟨r.heap.free new2,r.first⟩,out.2)
        else subtreeLoad fuel out.1 split.2

section
variable {tree1 : Nat} {tree : Subtree ρ} (here : r.heap.cells x = some node)
variable (found : netsnmpSubtreeFind r node.start none = some (some tree1)) (there : r.heap.cells tree1 = some tree) (fuel : Nat)
include here found there

theorem load_here (same : node.start = tree.start) :
    subtreeLoad (fuel+1) r (some x) = loadAt fuel r x tree1 node.ending tree.ending := by
  rw [same] at found
  rw [subtreeLoad,here]
  simp only [bind_eq_bind,bind_some,same,found,there,compare_less,compare_zero,ne_eq,not_true,if_false]
  rfl

theorem load_split (other : node.start ≠ tree.start)
    (split : netsnmpSubtreeSplit r.heap tree1 node.start = some (h,some new)) (cell : h.cells new = some part) :
    subtreeLoad (fuel+1) r (some x) = loadAt fuel ⟨h,r.first⟩ x new node.ending part.ending := by
  rw [subtreeLoad,here]
  simp only [bind_eq_bind,bind_some,found,there,compare_less,compare_zero,other,ne_eq,not_false_iff,if_true,split,cell]
  rfl

end

theorem good_start (good : Good has first last (left++s :: right)) : has s.start f ↔ f ∈ entries s := by
  obtain ⟨_,order,_,serves,_⟩ := good_cons.mp (good_append.mp good).choose_spec.2
  exact serves s.start le_rfl order f

theorem slice_ordered (good : Good has first last (left++s :: right)) : Ordered s.column :=
  entries_ordered.mp (good.ordered s (mem_append_right _ (.head _)))

section
variable (rep : Represents r (left++s :: right)) (good : Good has first last (left++s :: right))
variable (outside : x ∉ allAddresses (left++s :: right)) (small : x < r.heap.fresh) (here : r.heap.cells x = some node)
variable (low : s.start ≤ node.start) (high : node.start < s.ending)
include rep good outside small here low high

theorem load_aligned : ∃ h left' s' a, Reshaped [] r ⟨h,r.first⟩ has first last (left++s :: right) (left'++s' :: right) ∧ s'.start = node.start ∧ s'.ending = s.ending ∧
    headOr none s'.column = some a ∧ (left ≠ [] ∨ s.start < node.start → left' ≠ []) ∧ h.cells x = some node ∧
    ((∀ t ∈ left, t ∈ left') ∧ ∀ t ∈ left', t ∈ left ∨ t.start = s.start) ∧
    ∀ fuel, subtreeLoad (fuel+1) r (some x) = loadAt fuel ⟨h,r.first⟩ x a node.ending s.ending := by
  obtain ⟨a,head⟩ := head_filled rep
  obtain ⟨tree,there,starts,ends⟩ := head_cell rep head
  have found := find_good rep good (.inl rfl) low high
  rw [head] at found
  by_cases same : node.start = s.start
  · refine ⟨r.heap,left,s,a,⟨rep,good,le_rfl,fun _ _ _ _ => rfl,fun _ mem => .inl mem⟩,same.symm,rfl,head,?_,here,⟨fun _ mem => mem,fun _ mem => .inl mem⟩,fun fuel => ?_⟩
    · rintro (filled | less)
      · exact filled
      · exact absurd same less.ne'
    · rw [← ends]
      exact load_here here found there fuel (same.trans starts.symm)
  obtain ⟨h,run,split,parts,kept⟩ := split_good rep good (lt_of_le_of_ne low (Ne.symm same)) high head
  have still : h.cells x = some node := (kept.cells x small (not_mem_nil) outside).trans here
  have renumbered : headOr none (renumber r.heap.fresh s.column) = some r.heap.fresh := by
    cases hcase : s.column with
    | nil => simp [hcase,headOr] at head
    | cons p column => rfl
  have shape : left++⟨s.start,node.start,s.column⟩ :: ⟨node.start,s.ending,renumber r.heap.fresh s.column⟩ :: right =
      (left++[⟨s.start,node.start,s.column⟩])++⟨node.start,s.ending,renumber r.heap.fresh s.column⟩ :: right := by simp
  rw [shape] at split parts kept
  obtain ⟨part,cell,_,partEnds⟩ := head_cell split renumbered
  refine ⟨h,_,_,r.heap.fresh,⟨split,parts,kept⟩,rfl,rfl,renumbered,fun _ => by simp,still,
    ⟨fun t mem => mem_append_left _ mem,fun t mem => ?_⟩,fun fuel => ?_⟩
  · exact (mem_append.mp mem).imp_right fun new => by rw [mem_singleton.mp new]
  rw [load_split here found there fuel (fun equal => same (equal.trans starts)) run cell,partEnds]

variable (proper : node.start < node.ending) (within : node.ending ≤ s.ending)
include proper within

theorem load_placed : ∃ h left' s' a right', Reshaped [] r ⟨h,r.first⟩ has first last (left++s :: right) (left'++s' :: right') ∧
    s'.start = node.start ∧ s'.ending = node.ending ∧ headOr none s'.column = some a ∧
    (left ≠ [] ∨ s.start < node.start → left' ≠ []) ∧ h.cells x = some node ∧ (node.ending = s.ending → right' = right) ∧
    (∀ t ∈ left++right, t ∈ left'++right') ∧ (∀ t ∈ left'++right', t ∈ left++right ∨ t.start = s.start ∨ t.start = node.ending) ∧
    ∀ fuel, subtreeLoad (fuel+1) r (some x) = mergeChild ⟨h,r.first⟩ x a := by
  obtain ⟨h,left',s',a,⟨rep',good',kept⟩,starts,ends,head,preceded,still,⟨stays,olds⟩,run⟩ := load_aligned rep good outside small here low high
  by_cases same : node.ending = s.ending
  · refine ⟨h,left',s',a,right,⟨rep',good',kept⟩,starts,ends.trans same.symm,head,preceded,still,fun _ => rfl,fun t mem => ?_,
      fun t mem => ?_,fun fuel => ?_⟩
    · exact mem_append.mpr ((mem_append.mp mem).imp_left (stays t))
    · rcases mem_append.mp mem with early | late
      · exact (olds t early).imp (mem_append_left _) .inl
      · exact .inl (mem_append_right _ late)
    rw [run,loadAt,if_neg (by rw [same]; exact lt_irrefl _),if_pos same]
  have less : node.ending < s.ending := lt_of_le_of_ne within same
  have away := kept_away kept small not_mem_nil outside
  obtain ⟨h2,split,rep2,good2,kept2⟩ := split_good rep' good' (starts ▸ proper) (ends ▸ less) head
  have still2 : h2.cells x = some node :=
    (kept2.cells x (small.trans_le kept.fresh) not_mem_nil away).trans still
  refine ⟨h2,left',_,a,_,⟨rep2,good2,kept_trans kept kept2 fun _ wrong => (by cases wrong)⟩,starts,rfl,head,preceded,still2,
    fun equal => absurd equal same,fun t mem => ?_,fun t mem => ?_,fun fuel => ?_⟩
  · exact mem_append.mpr ((mem_append.mp mem).imp (stays t) (.tail _))
  · rcases mem_append.mp mem with early | late
    · exact (olds t early).imp (mem_append_left _) .inl
    · rcases mem_cons.mp late with rfl | later
      · exact .inr (.inr rfl)
      · exact .inl (mem_append_right _ later)
  rw [run,loadAt,if_pos less,split]
  rfl

variable (named : e = ⟨node.name,node.priority,node.info⟩)
include named

theorem load_within (preceded : left ≠ [] ∨ s.start < node.start) (free : ∀ f, has node.start f → ¬SameKey f e) :
    ∃ r' left' s' right', (∀ fuel, subtreeLoad (fuel+1) r (some x) = some (r',.registeredOk)) ∧
      Reshaped [x] r r' (also has node.start node.ending e) first last (left++s :: right) (left'++s' :: right') ∧ s'.ending = node.ending ∧ (node.ending = s.ending → right' = right) ∧
      (s'.start = node.start ∧ (x,e) ∈ s'.column) ∧ (∀ t ∈ left++right, t ∈ left'++right') ∧
      ∀ t ∈ left'++right', t ∈ left++right ∨ t.start = s.start ∨ t.start = node.ending := by
  obtain ⟨h,left',s',a,right',⟨placed,parts,kept⟩,starts,ends,head,filled,still,same,stays,olds,run⟩ :=
    load_placed rep good outside small here low high proper within
  have away := kept_away kept small not_mem_nil outside
  have clear : ∀ p ∈ s'.column, ¬SameKey p.2 e := fun p mem => by
    refine free p.2 ?_
    rw [← starts]
    exact (good_start parts).mpr (mem_map_of_mem mem)
  obtain ⟨h2,front,back,column,merged,rep2,ordered,fresh,others⟩ :=
    merge_linked placed (slice_ordered parts) head still named (filled preceded) away (small.trans_le kept.fresh) starts.symm ends.symm clear
  refine ⟨⟨h2,r.first⟩,left',_,right',fun fuel => by rw [run fuel,merged],⟨rep2,?_,?_⟩,ends,same,⟨starts,by simp⟩,stays,olds⟩
  · rw [← starts,← ends]
    exact good_insert parts column ordered
  refine ⟨kept.fresh.trans fresh.ge,fun y low out old => ?_,fun b mem => ?_⟩
  · have still := kept_away kept low not_mem_nil old
    exact (others y (fun equal => out (mem_singleton.mpr equal)) still).trans (kept.cells y low not_mem_nil old)
  have listed : b = x ∨ b ∈ allAddresses (left'++s' :: right') := by
    rw [allAddresses_append,allAddresses_cons] at mem ⊢
    simp only [addresses,map_append,map_cons,mem_append,mem_cons,column] at mem ⊢
    tauto
  rcases listed with new | old
  · exact .inr (.inl (mem_singleton.mpr new))
  rcases kept.listed b old with old' | wrong | large
  · exact .inl old'
  · cases wrong
  · exact .inr (.inr large)

theorem load_refused (taken : ∃ f, has node.start f ∧ SameKey f e) :
    ∃ r' slices', (∀ fuel, subtreeLoad (fuel+1) r (some x) = some (r',.duplicateRegistration)) ∧
      Reshaped [] r r' has first last (left++s :: right) slices' := by
  obtain ⟨h,left',s',a,right',⟨placed,parts,kept⟩,starts,_,head,_,still,_,_,_,run⟩ :=
    load_placed rep good outside small here low high proper within
  obtain ⟨f,served,same⟩ := taken
  rw [← starts] at served
  obtain ⟨p,mem,rfl⟩ := mem_map.mp ((good_start parts).mp served)
  refine ⟨⟨h,r.first⟩,_,fun fuel => ?_,placed,parts,kept⟩
  rw [run fuel]
  exact merge_taken placed (slice_ordered parts) head still named ⟨p,mem,same⟩

end

section
variable (rep : Represents r (left++s :: right)) (outside : x ∉ allAddresses (left++s :: right)) (small : x < r.heap.fresh)
variable (here : r.heap.cells x = some node) (alone : node.children = none ∧ node.next = none)
variable (named : e = ⟨node.name,node.priority,node.info⟩)
include rep outside small here alone named

theorem split_new (below : name ≤ node.ending) : ∃ h part rest,
    netsnmpSubtreeSplit r.heap x name = some (h,some r.heap.fresh) ∧ Represents ⟨h,r.first⟩ (left++s :: right) ∧
    h.cells x = some part ∧ part.start = node.start ∧ part.ending = name ∧ e = ⟨part.name,part.priority,part.info⟩ ∧
    h.cells r.heap.fresh = some rest ∧ rest.start = name ∧ rest.ending = node.ending ∧ e = ⟨rest.name,rest.priority,rest.info⟩ ∧
    rest.children = none ∧ rest.next = none ∧ rest.prev = some x ∧ h.fresh = r.heap.fresh+1 ∧
    ∀ y < r.heap.fresh, y ≠ x → h.cells y = r.heap.cells y := by
  have shown : ColumnAt r.heap node.start node.ending node.prev none none [(x,e)] :=
    ⟨⟨node,here,by rw [named],by rw [named],by rw [named],rfl,rfl,rfl,alone.2,alone.1⟩,trivial⟩
  obtain ⟨h,run,split⟩ := splitLoop_outcome below rfl shown (nodup_singleton x)
    (fun y mem => by rw [mem_singleton.mp mem]; exact small) rfl (Nat.succ_le_of_lt (Nat.zero_lt_of_lt small))
  obtain ⟨part,partCell,partShown⟩ := split.first.1
  obtain ⟨rest,restCell,restShown⟩ := split.second.1
  have others : ∀ y < r.heap.fresh, y ≠ x → h.cells y = r.heap.cells y := fun y low apart =>
    split.others y (by simpa [addresses] using apart) not_mem_nil low
  have fresh : h.fresh = r.heap.fresh+1 := split.fresh
  refine ⟨h,part,rest,run,?_,partCell,partShown.start,partShown.ending,?_,restCell,restShown.start,restShown.ending,?_,
    restShown.children,restShown.next,restShown.prev,fresh,others⟩
  · exact represents_frame rep (by omega) fun a mem => others a (rep.below a mem) fun equal => outside (equal ▸ mem)
  · rw [partShown.name,partShown.priority,partShown.info]
  · rw [restShown.name,restShown.priority,restShown.info]

variable (good : Good has first last (left++s :: right)) (low : s.start ≤ node.start) (high : node.start < s.ending)
variable (behind : s.ending < node.ending)
include good low high behind

theorem load_parts : ∃ h left' s' part rest, Reshaped [x] r ⟨h,r.first⟩ has first last (left++s :: right) (left'++s' :: right) ∧ s'.start = node.start ∧ s'.ending = s.ending ∧
    (left ≠ [] ∨ s.start < node.start → left' ≠ []) ∧ x ∉ allAddresses (left'++s' :: right) ∧
    h.cells x = some part ∧ part.start = node.start ∧ part.ending = s.ending ∧ e = ⟨part.name,part.priority,part.info⟩ ∧
    ∃ new2, r.heap.fresh ≤ new2 ∧ new2 < h.fresh ∧ x ≠ new2 ∧ new2 ∉ allAddresses (left'++s' :: right) ∧
    h.cells new2 = some rest ∧ rest.start = s.ending ∧ rest.ending = node.ending ∧ e = ⟨rest.name,rest.priority,rest.info⟩ ∧
    (rest.children = none ∧ rest.next = none) ∧ rest.prev = some x ∧
    ∀ fuel, subtreeLoad (fuel+1) r (some x) = (subtreeLoad fuel ⟨h,r.first⟩ (some x)).bind fun out =>
      if out.2 ≠ .registeredOk then
        (netsnmpRemoveSubtree out.1 new2).bind fun r => some (⟨r.heap.free new2,r.first⟩,out.2)
      else subtreeLoad fuel out.1 (some new2) := by
  obtain ⟨h1,left',s',a,⟨rep1,good1,kept1⟩,starts,ends,head,preceded,still,_,run⟩ := load_aligned rep good outside small here low high
  have away := kept_away kept1 small not_mem_nil outside
  have small1 : x < h1.fresh := small.trans_le kept1.fresh
  obtain ⟨h,part,rest,split,rep2,partCell,partStart,partEnd,partNamed,restCell,restStart,restEnd,restNamed,children,next,prev,fresh,others⟩ :=
    split_new rep1 away small1 still alone named behind.le
  have more : h.fresh = h1.fresh+1 := fresh
  have kept2 : Kept [x] ⟨h1,r.first⟩ ⟨h,r.first⟩ (left'++s' :: right) (left'++s' :: right) :=
    ⟨by show h1.fresh ≤ h.fresh; omega,fun y low out _ => others y low fun equal => out (mem_singleton.mpr equal),fun _ mem => .inl mem⟩
  have kept3 : Kept [x] r ⟨h1,r.first⟩ (left++s :: right) (left'++s' :: right) :=
    ⟨kept1.fresh,fun y low _ old => kept1.cells y low not_mem_nil old,fun b mem => (kept1.listed b mem).imp id fun more =>
      .inr (more.resolve_left not_mem_nil)⟩
  refine ⟨h,left',s',part,rest,⟨rep2,good1,kept_trans kept3 kept2 fun _ inside => .inl inside⟩,starts,ends,preceded,away,partCell,partStart,
    partEnd,partNamed,h1.fresh,kept1.fresh,by omega,by omega,fun mem => ?_,restCell,restStart,restEnd,restNamed,⟨children,next⟩,prev,fun fuel => ?_⟩
  · exact lt_irrefl _ (rep1.below _ mem)
  · rw [run,loadAt,if_neg (not_lt.mpr behind.le),if_neg behind.ne',split]
    rfl

end

theorem also_also (low : start ≤ middle) (high : middle ≤ ending) :
    also (also has start middle e) middle ending e o f ↔ also has start ending e o f := by
  constructor
  · rintro ((old | ⟨begins,ends,same⟩) | ⟨begins,ends,same⟩)
    · exact .inl old
    · exact .inr ⟨begins,ends.trans_le high,same⟩
    · exact .inr ⟨low.trans begins,ends,same⟩
  rintro (old | ⟨begins,ends,same⟩)
  · exact .inl (.inl old)
  · rcases lt_or_ge o middle with less | more
    · exact .inl (.inr ⟨begins,less,same⟩)
    · exact .inr ⟨more,ends,same⟩

-- Every slice from the start on takes its part of the new node, by induction on the slices behind.
theorem load_across : ∀ {right left : List (Slice ρ)} {s : Slice ρ} {r : Registry ρ} {x : Nat} {node : Subtree ρ}
    {has : Oid → Entry ρ → Prop} {fuel : Nat}, Represents r (left++s :: right) → Good has first last (left++s :: right) →
    x ∉ allAddresses (left++s :: right) → x < r.heap.fresh → r.heap.cells x = some node →
    node.children = none ∧ node.next = none → e = ⟨node.name,node.priority,node.info⟩ → s.start ≤ node.start → node.start < s.ending →
    node.start < node.ending → node.ending ≤ last → (left ≠ [] ∨ s.start < node.start) →
    (∀ o, node.start ≤ o → o < node.ending → ∀ f, has o f → ¬SameKey f e) → right.length < fuel →
    ∃ r' slices', subtreeLoad fuel r (some x) = some (r',.registeredOk) ∧
      Reshaped [x] r r' (also has node.start node.ending e) first last (left++s :: right) slices' := by
  intro right
  induction right with
  | nil =>
    intro left s r x node has fuel rep good outside small here _ named low high proper below preceded free enough
    have ends : s.ending = last := by
      obtain ⟨_,_,tiled⟩ := tiled_append.mp good.tiled
      exact tiled.2.2
    obtain ⟨r',left',s',right',run,⟨rep',good',kept⟩,_⟩ := load_within rep good outside small here low high proper (ends ▸ below) named preceded
      (free node.start le_rfl proper)
    cases fuel with
    | zero => omega
    | succ fuel => exact ⟨r',_,run fuel,rep',good',kept⟩
  | cons t right ih =>
    intro left s r x node has fuel rep good outside small here alone named low high proper below preceded free enough
    obtain ⟨fuel,rfl⟩ : ∃ more, fuel = more+1 := ⟨fuel-1,by omega⟩
    rcases le_or_gt node.ending s.ending with within | behind
    · obtain ⟨r',left',s',right',run,⟨rep',good',kept⟩,_⟩ := load_within rep good outside small here low high proper within named preceded
        (free node.start le_rfl proper)
      exact ⟨r',_,run fuel,rep',good',kept⟩
    obtain ⟨h,left',s',part,rest,⟨rep1,good1,kept1⟩,starts,ends,filled,away,partCell,partStart,partEnd,partNamed,new2,large,small2,apart,out2,
      restCell,restStart,restEnd,restNamed,restAlone,_,run⟩ := load_parts rep outside small here alone named good low high behind
    have proper1 : part.start < part.ending := by
      rw [partStart,partEnd]
      exact high
    obtain ⟨r2,left2,s2,right2,run2,⟨rep2,good2,kept2⟩,ends2,same2,_⟩ := load_within rep1 good1 away (small.trans_le kept1.fresh) partCell
      (by rw [starts,partStart]) (by rw [ends,partStart]; exact high) proper1 (by rw [partEnd,ends]) partNamed
      (.inl (filled preceded)) (by rw [partStart]; exact free node.start le_rfl proper)
    obtain rfl := same2 (by rw [partEnd,ends])
    rw [partStart,partEnd] at good2
    have shape : left2++s2 :: t :: right = (left2++[s2])++t :: right := by simp
    rw [shape] at rep2 good2 kept2
    have begins : t.start = s.ending := by
      obtain ⟨_,before,after⟩ := tiled_append.mp good2.tiled
      obtain ⟨_,_,single⟩ := tiled_append.mp before
      rw [after.1,← single.2.2,ends2,partEnd]
    have order : t.start < t.ending := (tiled_within good2.tiled t (mem_append_right _ (.head _))).2.1
    have cell2 : r2.heap.cells new2 = some rest :=
      (kept2.cells new2 small2 (fun equal => apart (mem_singleton.mp equal).symm) out2).trans restCell
    have out3 := kept_away kept2 small2 (fun equal => apart (mem_singleton.mp equal).symm) out2
    have clear : ∀ o, rest.start ≤ o → o < rest.ending → ∀ f, also has node.start s.ending e o f → ¬SameKey f e := by
      rw [restStart,restEnd]
      rintro o low high f (old | ⟨_,wrong,_⟩)
      · exact free o (low.trans' (le_of_lt ‹node.start < s.ending›)) high f old
      · exact absurd wrong (not_lt.mpr low)
    obtain ⟨r3,slices3,run3,rep3,good3,kept3⟩ := ih rep2 good2 out3 (small2.trans_le kept2.fresh) cell2 restAlone restNamed
      (by rw [begins,restStart]) (by rw [restStart,← begins]; exact order) (by rw [restStart,restEnd]; exact behind)
      (by rw [restEnd]; exact below) (.inl (by simp)) clear (Nat.lt_of_succ_lt_succ enough)
    rw [restStart,restEnd] at good3
    refine ⟨r3,slices3,?_,rep3,good_other good3 fun o _ _ f => also_also high.le behind.le,?_⟩
    · obtain ⟨fuel,rfl⟩ : ∃ more, fuel = more+1 := ⟨fuel-1,by simp only [length_cons] at enough; omega⟩
      rw [run,run2]
      exact run3
    · refine kept_trans (kept_trans kept1 kept2 fun _ inside => .inl inside) kept3 fun a inside => .inr ?_
      rw [mem_singleton.mp inside]
      exact large

-- The part of a refused node that was still to be loaded is taken off the first part and freed.
theorem remove_part (cell : r.heap.cells new2 = some rest) (prev : rest.prev = some x)
    (next : rest.next = none) (there : r.heap.cells x = some part) :
    netsnmpRemoveSubtree r new2 = some ⟨r.heap.put x {part with next := none},r.first⟩ := by
  rw [netsnmpRemoveSubtree,cell]
  simp [prev,next,there]

theorem load_taken (rep : Represents r (left++s :: right)) (good : Good has first last (left++s :: right))
    (outside : x ∉ allAddresses (left++s :: right)) (small : x < r.heap.fresh) (here : r.heap.cells x = some node)
    (alone : node.children = none ∧ node.next = none) (named : e = ⟨node.name,node.priority,node.info⟩) (low : s.start ≤ node.start)
    (high : node.start < s.ending) (proper : node.start < node.ending) (taken : ∃ f, has node.start f ∧ SameKey f e) (enough : 2 ≤ fuel) :
    ∃ r' slices', subtreeLoad fuel r (some x) = some (r',.duplicateRegistration) ∧ Represents r' slices' ∧ Good has first last slices' ∧
      r.heap.fresh ≤ r'.heap.fresh ∧ x ∉ allAddresses slices' := by
  obtain ⟨fuel,rfl⟩ : ∃ more, fuel = more+2 := ⟨fuel-2,by omega⟩
  rcases le_or_gt node.ending s.ending with within | behind
  · obtain ⟨r',slices',run,rep',good',kept⟩ := load_refused rep good outside small here low high proper within named taken
    exact ⟨r',slices',run (fuel+1),rep',good',kept.fresh,kept_away kept small not_mem_nil outside⟩
  obtain ⟨h,left',s',part,rest,⟨rep1,good1,kept1⟩,starts,ends,_,away,partCell,partStart,partEnd,partNamed,new2,large,small2,apart,out2,
    restCell,_,_,_,restAlone,restPrev,run⟩ := load_parts rep outside small here alone named good low high behind
  have small1 : x < h.fresh := small.trans_le kept1.fresh
  obtain ⟨r2,slices2,run2,rep2,good2,kept2⟩ := load_refused rep1 good1 away small1 partCell
    (by rw [starts,partStart]) (by rw [ends,partStart]; exact high) (by rw [partStart,partEnd]; exact high) (by rw [partEnd,ends])
    partNamed (by rw [partStart]; exact taken)
  have xOut := kept_away kept2 small1 not_mem_nil away
  have newOut := kept_away kept2 small2 not_mem_nil out2
  have xCell := (kept2.cells x small1 not_mem_nil away).trans partCell
  have newCell := (kept2.cells new2 small2 not_mem_nil out2).trans restCell
  refine ⟨⟨(r2.heap.put x {part with next := none}).free new2,r2.first⟩,slices2,?_,?_,good2,kept1.fresh.trans kept2.fresh,xOut⟩
  · rw [run,run2 fuel]
    simp only [bind_some,ne_eq,reduceCtorEq,not_false_eq_true,if_true]
    rw [remove_part newCell restPrev restAlone.2 xCell]
    rfl
  refine represents_frame rep2 le_rfl fun a mem => ?_
  have one : a ≠ new2 := fun equal => newOut (equal ▸ mem)
  have two : a ≠ x := fun equal => xOut (equal ▸ mem)
  simp [one,two]

end

end NetSnmp.AgentRegistry
