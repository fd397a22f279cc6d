import Mathlib.Data.List.Sort
import SipxExternals.NetSnmpRegistryRuns

namespace NetSnmp.AgentRegistry
open Foundations.Heaps Foundations.Lex NetSnmp.AsnTypes
open List (any_eq_true length_set mem_append mem_cons mem_filter mem_of_mem_filter mem_singleton not_mem_nil)
open Option (bind_eq_bind bind_some)

variable {ρ : Type} {null : ρ} {r r' : Registry ρ} {live live' : List (Entry ρ)} {slices : List (Slice ρ)}

def servedBy (r : Registry ρ) (oid : Oid) : Option (List (Entry ρ)) := do
  let slice ← netsnmpSubtreeFind r oid none
  let nodes ← childrenOf r.heap r.heap.fresh slice
  some (nodes.map entryOf)

def Restored (r r' : Registry ρ) : Prop := ∀ oid, servedBy r' oid = servedBy r oid

theorem served_live (holds : Holds null r live) :
    ∃ served, servedBy r oid = some served ∧ served.Pairwise Before ∧ ∀ e, e ∈ served ↔ belongs live oid e := by
  rcases slice_found holds oid with ⟨left,s,right,rep,found,sorted,serves⟩ | ⟨outside,unserved⟩
  · obtain ⟨_,held,_⟩ := linked_append.mp rep.linked
    obtain ⟨nodes,run,same,_⟩ := childrenOf_column held.column (column_enough rep)
    refine ⟨entries s,?_,sorted,fun e => (serves e).symm⟩
    rw [servedBy,found]
    simp only [bind_eq_bind,bind_some,run,same]
    rfl
  · refine ⟨[],?_,.nil,fun e => iff_of_false not_mem_nil (unserved e)⟩
    rw [servedBy,outside]
    simp only [bind_eq_bind,bind_some,childrenOf]
    rfl

theorem before_unique {left : List (Entry ρ)} (one : left.Pairwise Before) (two : right.Pairwise Before)
    (same : ∀ e, e ∈ left ↔ e ∈ right) : left = right := by
  have distinct : ∀ {l : List (Entry ρ)}, l.Pairwise Before → l.Nodup := by
    intro l sorted
    refine List.Pairwise.imp ?_ sorted
    rintro a _ before rfl
    exact before_asymm before before
  refine List.Perm.eq_of_pairwise (fun a b _ _ first second => absurd second (before_asymm first)) one two ?_
  exact (List.perm_ext_iff_of_nodup (distinct one) (distinct two)).mpr same

theorem restored_live (holds : Holds null r live) (after : Holds null r' live') : Restored r r' ↔ ∀ e, e ∈ live' ↔ e ∈ live := by
  constructor
  · intro restored e
    obtain ⟨served,run,_,members⟩ := served_live holds
    obtain ⟨served',run',_,members'⟩ := served_live after
    have equal := restored e.name
    rw [run,run'] at equal
    cases equal
    have both := (members' e).symm.trans (members e)
    unfold belongs at both
    simpa using both
  · intro same oid
    obtain ⟨served,run,sorted,members⟩ := served_live holds
    obtain ⟨served',run',sorted',members'⟩ := served_live after
    rw [run,run',before_unique sorted' sorted fun e => by rw [members,members',belongs,belongs,same e]]

theorem restored_answer (holds : Holds null r live) (after : Holds null r' live') (restored : Restored r r') (oid : Oid) :
    answer r' oid = answer r oid := by
  have same := (restored_live holds after).mp restored
  obtain ⟨found,one,dispatched⟩ := answer_dispatched holds oid
  obtain ⟨other,two,dispatched'⟩ := answer_dispatched after oid
  have moved : Dispatched live oid other := by
    cases other with
    | none => exact fun e mem => dispatched' e ((same e).mpr mem)
    | some e =>
      obtain ⟨mem,begins,first⟩ := dispatched'
      exact ⟨(same e).mp mem,begins,fun f inside => first f ((same f).mpr inside)⟩
  rw [one,two,dispatched_unique dispatched moved]

section
variable {mibloc : Oid} {position : Nat} {priority : Int} {lb ub : Nat}

def inRange (mibloc : Oid) (position : Nat) (priority : Int) (first stop : Nat) (e : Entry ρ) : Prop :=
  ∃ m, first ≤ m ∧ m < stop ∧ named (mibloc.set position m) priority e = true

theorem dropNames_subset (position : Nat) : ∀ {gas : Nat} {live : List (Entry ρ)} {name : Oid},
    ∀ e ∈ (dropNames priority position rangeUbound orig gas live name).1, e ∈ live
  | 0,_,_,_,mem => mem
  | gas+1,live,name,e,mem => by
    rw [dropNames] at mem
    split at mem
    · dsimp only at mem
      split at mem
      · exact mem_of_mem_filter mem
      · exact mem_of_mem_filter (dropNames_subset position e mem)
    · exact mem

theorem set_same (inside : position < mibloc.length) (start : mibloc.getD position 0 = lb) :
    mibloc.set position lb = mibloc := by
  rw [← start,List.getD_eq_getElem?_getD,List.getElem?_eq_getElem inside]
  exact List.set_getElem_self inside

theorem set_getD (inside : position < mibloc.length) (m : Nat) : (mibloc.set position m).getD position 0 = m := by
  simp [List.getD_eq_getElem?_getD,inside]

variable (inside : position < mibloc.length) (small : lb < 2^31 ∧ ub < 2^31)
include inside small

theorem dropNames_step (low : i < 2^32) (present : live.any (named (mibloc.set position i) priority) = true) :
    dropNames priority position ub lb (gas+1) live (mibloc.set position i) =
      if i+1 ≥ lb+ub then (live.filter fun e => !named (mibloc.set position i) priority e,.unregisteredOk)
      else dropNames priority position ub lb gas (live.filter fun e => !named (mibloc.set position i) priority e)
        (mibloc.set position (i+1)) := by
  have bound : toOid ((lb : Int)+(ub : Int)) = lb+ub := by
    rw [toOid]
    omega
  have ranged : (lb : Int) ≠ -1 := by omega
  rw [dropNames,if_pos present]
  simp only [set_getD inside,raised_small low,bound,ranged,false_or,List.set_set]

omit small in
theorem filter_present (other : i ≠ m) (present : live.any (named (mibloc.set position m) priority) = true) :
    (live.filter fun e => !named (mibloc.set position i) priority e).any (named (mibloc.set position m) priority) = true := by
  obtain ⟨e,mem,same⟩ := any_eq_true.mp present
  refine any_eq_true.mpr ⟨e,mem_filter.mpr ⟨mem,?_⟩,same⟩
  have apart : ¬named (mibloc.set position i) priority e = true := fun equal => other <| by
    have names := (named_iff.mp equal).1.symm.trans (named_iff.mp same).1
    rw [← set_getD inside i,← set_getD inside m,names]
  simpa using apart

omit inside small in
theorem first_from (i : Nat) {P : Nat → Prop} : (∃ m, i ≤ m ∧ P m) ↔ P i ∨ ∃ m, i+1 ≤ m ∧ P m := by
  constructor
  · rintro ⟨m,low,holds⟩
    rcases eq_or_lt_of_le low with rfl | later
    · exact .inl holds
    · exact .inr ⟨m,later,holds⟩
  · rintro (holds | ⟨m,low,holds⟩)
    · exact ⟨i,le_rfl,holds⟩
    · exact ⟨m,by omega,holds⟩

omit inside small in
theorem inRange_first (order : i < stop) : inRange mibloc position priority i stop e ↔
    named (mibloc.set position i) priority e = true ∨ inRange mibloc position priority (i+1) stop e := by
  rw [inRange,first_from i,and_iff_right order]
  rfl

-- The loop takes the names out up to the one where it ends: there the bound is reached or the
-- next name is missing.
theorem dropNames_range (bounded : stop ≤ 2^32) (going : ∀ m, lb < m → m < stop → m < lb+ub) : ∀ {rounds i gas : Nat}
    {live : List (Entry ρ)}, lb ≤ i → i+rounds = stop → 0 < rounds → (∀ m, i ≤ m → m < stop → live.any (named (mibloc.set position m) priority) = true) →
    (lb+ub ≤ stop ∨ ¬live.any (named (mibloc.set position stop) priority) = true) → live.length < gas →
    ∀ e, e ∈ (dropNames priority position ub lb gas live (mibloc.set position i)).1 ↔
      e ∈ live ∧ ¬inRange mibloc position priority i stop e := by
  intro rounds
  induction rounds with
  | zero =>
    intro i gas live _ _ wrong
    omega
  | succ rounds ih =>
    intro i gas live above count _ present ends enough e
    obtain ⟨gas,rfl⟩ : ∃ rest, gas = rest+1 := ⟨gas-1,by omega⟩
    have here := present i le_rfl (by omega)
    have order : i < stop := by omega
    have fewer : ∀ {p}, (live.filter fun f => !named (mibloc.set position i) priority f).any p = true → live.any p = true := by
      intro p found
      obtain ⟨f,mem,same⟩ := any_eq_true.mp found
      exact any_eq_true.mpr ⟨f,mem_of_mem_filter mem,same⟩
    rw [dropNames_step inside small (by omega) here,inRange_first order]
    cases rounds with
    | zero =>
      have last : stop = i+1 := by omega
      subst last
      have nothing : ¬inRange mibloc position priority (i+1) (i+1) e := fun ⟨m,low,high,_⟩ => by omega
      split
      · simp [nothing]
      rename_i before
      have gone := mt fewer (ends.resolve_left (by omega))
      cases gas with
      | zero =>
        have shorter := filter_shorter here
        omega
      | succ gas =>
        rw [dropNames,if_neg gone,mem_filter]
        simp [nothing]
    | succ rounds =>
      have before := going (i+1) (by omega) (by omega)
      rw [if_neg (by omega)]
      have shorter := filter_shorter here
      rw [ih (by omega) (by omega) (by omega) (fun m low high => filter_present inside (by omega) (present m (by omega) high)) ?_ (by omega),mem_filter]
      · simp only [Bool.not_eq_true',not_or,Bool.not_eq_true]
        tauto
      · exact ends.imp_right (mt fewer)

theorem dropNames_reached (bounded : stop < 2^32) (going : stop < lb+ub) : ∀ {rounds i gas : Nat}
    {live : List (Entry ρ)}, i+rounds = stop → (∀ m, i ≤ m → m ≤ stop → live.any (named (mibloc.set position m) priority) = true) →
    live.length < gas → ∀ e ∈ (dropNames priority position ub lb gas live (mibloc.set position i)).1,
      ¬named (mibloc.set position stop) priority e = true := by
  intro rounds
  induction rounds with
  | zero =>
    intro i gas live count present enough e mem
    obtain rfl : i = stop := by omega
    obtain ⟨gas,rfl⟩ : ∃ rest, gas = rest+1 := ⟨gas-1,by omega⟩
    rw [dropNames_step inside small bounded (present i le_rfl le_rfl)] at mem
    have kept : e ∈ live.filter fun f => !named (mibloc.set position i) priority f := by
      split at mem
      · exact mem
      · exact dropNames_subset _ e mem
    simpa using (mem_filter.mp kept).2
  | succ rounds ih =>
    intro i gas live count present enough e mem
    obtain ⟨gas,rfl⟩ : ∃ rest, gas = rest+1 := ⟨gas-1,by omega⟩
    have here := present i le_rfl (by omega)
    rw [dropNames_step inside small (by omega) here,if_neg (by omega)] at mem
    have shorter := filter_shorter here
    exact ih (by omega) (fun m low high => filter_present inside (by omega) (present m (by omega) high)) (by omega) e mem

end

section
variable {e : Entry ρ} {node : Subtree ρ}

theorem region_within {s : Slice ρ} {has : Oid → Entry ρ → Prop} (proper : ProperName name)
    (good : Good has [0] [3] (left++s :: right)) (high : name < s.ending)
    (clear : ∀ t ∈ left++s :: right, ¬(name < t.start ∧ t.start < raiseLast name)) : raiseLast name ≤ s.ending := by
  obtain ⟨_,_,tiled⟩ := tiled_append.mp good.tiled
  cases right with
  | nil =>
    rw [show s.ending = [3] from tiled.2.2]
    exact (name_between (proper_filled proper) proper.2.2.1).2.2
  | cons t right =>
    have begins : t.start = s.ending := tiled.2.2.1
    refine not_lt.mp fun less => clear t (List.mem_append_right _ (.tail _ (.head _))) ?_
    rw [begins]
    exact ⟨high,less⟩

theorem load_clear (ok : LiveOk null live) (rep : Represents r slices) (good : Good (belongs live) [0] [3] slices) (proper : ProperName e.name)
    (byte : e.priority < 256) (new : ∀ f ∈ live, ¬(f.name = e.name ∧ f.priority = e.priority))
    (clear : ∀ t ∈ slices, ¬(e.name < t.start ∧ t.start < raiseLast e.name)) (starts : node.start = e.name)
    (ends : node.ending = raiseLast e.name) (shown : e = ⟨node.name,node.priority,node.info⟩) : ∃ r' slices',
      (∀ fuel, subtreeLoad (fuel+1) ⟨r.heap.alloc node,r.first⟩ (some r.heap.fresh) = some (r',.registeredOk)) ∧ LiveOk null (e :: live) ∧
      Represents r' slices' ∧ Good (belongs (e :: live)) [0] [3] slices' ∧
      (∃ t ∈ slices', t.start = e.name ∧ t.ending = raiseLast e.name ∧ (r.heap.fresh,e) ∈ t.column) ∧
      (∀ t ∈ slices, (t.start ≤ e.name ∧ e.name < t.ending) ∨ t ∈ slices') ∧
      ∀ t ∈ slices', (∃ u ∈ slices, t.start = u.start) ∨ t.start = e.name ∨ t.start = raiseLast e.name := by
  have filled := proper_filled proper
  obtain ⟨left,s,right,rfl,placed,outside,low,high,preceded,_⟩ := alloc_placed rep good proper node
  have within := region_within proper good high clear
  have cell : (r.heap.alloc node).cells r.heap.fresh = some node := by simp
  rw [← starts] at low high preceded
  rw [← ends] at within
  have order : node.start < node.ending := by
    rw [starts,ends]
    exact lt_raiseLast filled
  obtain ⟨r',left',s',right',run,⟨rep',good',_⟩,ends',_,⟨starts',listed⟩,stays,olds⟩ := load_within placed good outside (Nat.lt_succ_self _) cell
    low high order within shown preceded fun f covers => key_free filled new node.start starts.ge (by rw [starts]; exact lt_raiseLast filled) f covers
  rw [starts,ends] at good'
  rw [starts] at low high starts'
  rw [ends] at ends' olds
  refine ⟨r',_,run,liveOk_more ok ⟨filled,proper.2.2.1,byte⟩ new,rep',good_other good' fun o _ _ f => belongs_more filled,
    ⟨s',List.mem_append_right _ (.head _),starts',ends',listed⟩,fun t mem => ?_,fun t mem => ?_⟩
  · have parts : t = s ∨ t ∈ left++right := by grind
    rcases parts with rfl | other
    · exact .inl ⟨low,high⟩
    · have kept := stays t other
      grind
  have parts : t = s' ∨ t ∈ left'++right' := by grind
  rcases parts with rfl | other
  · exact .inr (.inl starts')
  rcases olds t other with old | same | same
  · exact .inl ⟨t,by grind,rfl⟩
  · exact .inl ⟨s,List.mem_append_right _ (.head _),same⟩
  · exact .inr (.inr same)

theorem column_shows : ∀ {column : List (Nat × Entry ρ)},
    ColumnAt h start ending prev next tail column → (a,e) ∈ column → ∃ node children, h.cells a = some node ∧
      Shows node start ending e prev next children
  | [],_,wrong => by cases wrong
  | (b,f) :: column,⟨⟨node,here,shown⟩,rest⟩,mem => by
    rcases mem_cons.mp mem with same | later
    · cases same
      exact ⟨node,_,here,shown⟩
    · exact column_shows rest later

theorem slice_shows (rep : Represents r slices) (mem : t ∈ slices) (listed : (x,e) ∈ t.column) :
    ∃ node, r.heap.cells x = some node ∧ node.start = t.start ∧ node.ending = t.ending ∧ e = ⟨node.name,node.priority,node.info⟩ := by
  obtain ⟨left,right,rfl⟩ := List.append_of_mem mem
  obtain ⟨_,held,_⟩ := linked_append.mp rep.linked
  obtain ⟨node,_,here,shown⟩ := column_shows held.column listed
  exact ⟨node,here,shown.start,shown.ending,by rw [shown.name,shown.priority,shown.info]⟩

end

section
variable {mibloc : Oid} {position : Nat} {priority : Int} {info : ρ} {x ub : Nat}

def rangeEntry (mibloc : Oid) (position : Nat) (priority : Int) (info : ρ) (i : Nat) : Entry ρ :=
  ⟨mibloc.set position i,(priority%256).toNat,info⟩

theorem toInt_small {n : Nat} (small : n < 2^31) : toInt n = n := by
  rw [toInt]
  omega

theorem toOid_small {n : Nat} (small : n < 2^31) : toOid n = n := by
  rw [toOid]
  omega

theorem rangeCopy_made {i : Nat} (inside : position < mibloc.length) (small : i < 2^31) (name : node.name = mibloc)
    (starts : node.start = mibloc) (ends : node.ending = raiseLast mibloc) :
    ∃ copy, rangeCopy node position (toOid i) (position+1 = mibloc.length) = some copy ∧ copy.name = mibloc.set position i ∧
      copy.start = mibloc.set position i ∧ copy.ending = raiseLast (mibloc.set position i) ∧ copy.priority = node.priority ∧
      copy.info = node.info := by
  have filled : mibloc ≠ [] := List.ne_nil_of_length_pos (Nat.zero_lt_of_lt inside)
  have long : position < (raiseLast mibloc).length := by
    rw [raiseLast_length filled]
    exact inside
  have ending := raiseLast_set inside i
  refine ⟨{node with name := mibloc.set position i, start := mibloc.set position i, ending := raiseLast (mibloc.set position i)},?_,
    rfl,rfl,rfl,rfl,rfl⟩
  rw [rangeCopy,toOid_small small,raised_small (by omega)]
  simp [setSubid,name,starts,ends,inside,long,ending]

theorem same_length_outside (filled : name ≠ []) (length : o.length = name.length) : ¬(name < o ∧ o < raiseLast name) := by
  rintro ⟨low,high⟩
  have begins := (begins_between filled o).mp ⟨low.le,high⟩
  exact low.ne (begins.eq_of_length length.symm)

theorem range_first (order : i ≤ ub) :
    ((f = rangeEntry mibloc position priority info i ∨ old) ∨ ∃ j, i+1 ≤ j ∧ j ≤ ub ∧ f = rangeEntry mibloc position priority info j) ↔
      old ∨ ∃ j, i ≤ j ∧ j ≤ ub ∧ f = rangeEntry mibloc position priority info j := by
  rw [first_from i,and_iff_right order]
  tauto

theorem range_apart (inside : position < mibloc.length)
    (one : f = rangeEntry mibloc position priority info i) (two : f.name = mibloc.set position j) : i = j := by
  have values := congrArg (fun name : Oid => name.getD position 0) two
  rw [one] at values
  simpa only [rangeEntry,set_getD inside] using values

-- While the copies are made: the first node of the range has a slice of its own, and no slice
-- begins inside of the regions to come.
structure Ranging (null : ρ) (r : Registry ρ) (live : List (Entry ρ)) (slices : List (Slice ρ)) (x : Nat) (e : Entry ρ) (mibloc : Oid)
    (position i ub : Nat) : Prop where
  ok : LiveOk null live
  rep : Represents r slices
  good : Good (belongs live) [0] [3] slices
  first : ∃ t ∈ slices, t.start = mibloc ∧ t.ending = raiseLast mibloc ∧ (x,e) ∈ t.column
  clear : ∀ t ∈ slices, ∀ j, i ≤ j → j ≤ ub → ¬(mibloc.set position j < t.start ∧ t.start < raiseLast (mibloc.set position j))

section
variable {lb : Nat} (inside : position < mibloc.length) (start : mibloc.getD position 0 = lb) (small : ub < 2147483647)
variable (proper : ∀ j, lb ≤ j → j ≤ ub → ProperName (mibloc.set position j))
include inside start small proper

theorem ranging_step (ranging : Ranging null r live slices x (rangeEntry mibloc position priority info lb) mibloc position i ub)
    (above : lb < i) (below : i ≤ ub)
    (new : ∀ f ∈ live, ∀ j, i ≤ j → j ≤ ub → ¬(f.name = mibloc.set position j ∧ f.priority = (priority%256).toNat)) :
    ∃ node copy r' slices', r.heap.cells x = some node ∧ rangeCopy node position (toOid i) (position+1 = mibloc.length) = some copy ∧
      netsnmpSubtreeLoad null ⟨r.heap.alloc copy,r.first⟩ (some r.heap.fresh) = some (r',.registeredOk) ∧
      Ranging null r' (rangeEntry mibloc position priority info i :: live) slices' x (rangeEntry mibloc position priority info lb)
        mibloc position (i+1) ub := by
  have same := set_same inside start
  obtain ⟨t,mem,starts,ends,listed⟩ := ranging.first
  obtain ⟨node,cell,nodeStart,nodeEnd,shown⟩ := slice_shows ranging.rep mem listed
  have fields := Entry.mk.inj shown
  obtain ⟨copy,made,copyName,copyStart,copyEnd,copyPriority,copyInfo⟩ := rangeCopy_made inside (by omega : i < 2^31)
    (fields.1.symm.trans same) (nodeStart.trans starts) (nodeEnd.trans ends)
  have here := proper i above.le below
  have filled := proper_filled here
  have byte : (priority%256).toNat < 256 := by omega
  have copyShown : rangeEntry mibloc position priority info i = ⟨copy.name,copy.priority,copy.info⟩ := by
    rw [copyName,copyPriority,copyInfo,← fields.2.1,← fields.2.2]
    rfl
  obtain ⟨r',slices',run,ok,rep,good,_,stays,olds⟩ := load_clear ranging.ok ranging.rep ranging.good here byte
    (fun f listed => new f listed i le_rfl below) (fun u listed => ranging.clear u listed i le_rfl below) copyStart copyEnd copyShown
  have name : (rangeEntry mibloc position priority info i).name = mibloc.set position i := rfl
  rw [name] at stays olds
  have known := first_known ⟨ranging.ok,slices,ranging.rep,ranging.good⟩
  refine ⟨node,copy,r',slices',cell,made,?_,ok,rep,good,⟨t,?_,starts,ends,listed⟩,fun u listed j low high => ?_⟩
  · simp only [netsnmpSubtreeLoad,known,Bool.false_eq_true,if_false]
    exact run _
  · refine (stays t mem).resolve_left fun covered => ?_
    rw [starts,ends] at covered
    have begins := (begins_between (fun empty => by rw [empty] at inside; cases inside) _).mp covered
    have equal := begins.eq_of_length (by rw [length_set])
    have values := congrArg (fun name : Oid => name.getD position 0) equal
    rw [start,set_getD inside] at values
    omega
  · have other := proper_filled (proper j (by omega) high)
    rcases olds u listed with ⟨v,old,equal⟩ | equal | equal
    · rw [equal]
      exact ranging.clear v old j (by omega) high
    · rw [equal]
      exact same_length_outside other (by rw [length_set,length_set])
    · rw [equal]
      exact same_length_outside other (by rw [raiseLast_length filled,length_set,length_set])

theorem rangeLoop_run : ∀ {rounds i : Nat} {r : Registry ρ} {live : List (Entry ρ)} {slices : List (Slice ρ)},
    Ranging null r live slices x (rangeEntry mibloc position priority info lb) mibloc position i ub → lb < i → i+rounds = ub+1 →
    (∀ f ∈ live, ∀ j, i ≤ j → j ≤ ub → ¬(f.name = mibloc.set position j ∧ f.priority = (priority%256).toNat)) →
    ∃ r' live', rangeLoop null mibloc priority ((position : Int)+1) ub x rounds i r = some (r',.registeredOk) ∧ Holds null r' live' ∧
      ∀ f, f ∈ live' ↔ f ∈ live ∨ ∃ j, i ≤ j ∧ j ≤ ub ∧ f = rangeEntry mibloc position priority info j := by
  intro rounds
  induction rounds with
  | zero =>
    intro i r live slices ranging _ count _
    refine ⟨r,live,rfl,⟨ranging.ok,slices,ranging.rep,ranging.good⟩,fun f => ⟨.inl,fun either => either.resolve_right ?_⟩⟩
    rintro ⟨j,low,high,_⟩
    omega
  | succ rounds ih =>
    intro i r live slices ranging above count new
    obtain ⟨node,copy,r1,slices1,cell,made,loaded,ranging1⟩ := ranging_step inside start small proper ranging above (by omega) new
    obtain ⟨r2,live2,run,holds,members⟩ := ih ranging1 (by omega) (by omega) (by
      intro f mem j low high same
      rcases mem_cons.mp mem with first | old
      · have equal := range_apart inside first same.1
        omega
      · exact new f old j (by omega) high same)
    refine ⟨r2,live2,?_,holds,fun f => ?_⟩
    · have place : ((position : Int)+1).toNat-1 = position ∧ ((position : Int)+1).toNat = position+1 := by omega
      rw [rangeLoop,place.1,place.2,cell]
      simp only [bind_eq_bind,bind_some,made,loaded,ne_eq,not_true,if_false]
      exact run
    · rw [members f,mem_cons]
      exact range_first (by omega)

end

def Clear (r : Registry ρ) (name : Oid) : Prop := ∀ columns, sliceList r = some columns → ∀ column ∈ columns, ∀ node ∈ column,
  ¬(name < node.start ∧ node.start < raiseLast name)

theorem clear_slices (rep : Represents r slices) (good : Good has [0] [3] slices) (clear : Clear r name) :
    ∀ t ∈ slices, ¬(name < t.start ∧ t.start < raiseLast name) := by
  intro t mem
  obtain ⟨columns,list,_,_,starts⟩ := sliceList_good rep good
  obtain ⟨column,listed,node,inside,same⟩ := starts t mem
  rw [← same]
  exact clear columns list column listed node inside

theorem register_ranged (known : r.first.isNone = false) (inside : position < mibloc.length)
    (start : mibloc.getD position 0 = lb) (order : lb ≤ ub) (small : ub < 2147483647)
    (loaded : subtreeLoad (r.heap.fresh+2) ⟨r.heap.alloc (newSubtree var mibloc priority info),r.first⟩ (some r.heap.fresh) =
      some (r',.registeredOk)) :
    netsnmpRegisterMib null r var mibloc priority ((position : Int)+1) ub info =
      rangeLoop null mibloc priority ((position : Int)+1) ub r.heap.fresh (ub-lb) ((lb+1 : Nat) : Int) r' := by
  have filled : mibloc ≠ [] := List.ne_nil_of_length_pos (Nat.zero_lt_of_lt inside)
  have direct : netsnmpSubtreeLoad null ⟨r.heap.alloc (newSubtree var mibloc priority info),r.first⟩ (some r.heap.fresh) =
      some (r',.registeredOk) := by
    simp only [netsnmpSubtreeLoad,known,Bool.false_eq_true,if_false]
    exact loaded
  have place : ((position : Int)+1).toNat-1 = position := by omega
  have first : toInt (raised lb) = ((lb+1 : Nat) : Int) := by
    rw [raised_small (by omega),toInt_small (by omega)]
  have rounds : ((ub : Int)-((lb+1 : Nat) : Int)+1).toNat = ub-lb := by omega
  rw [netsnmpRegisterMib,if_neg filled]
  simp only [bind_eq_bind,bind_some,direct,ne_eq,not_true,if_false]
  rw [if_neg (by omega),if_neg (by omega),if_neg (by rw [toInt_small (by omega)]; omega),place,start,first,toInt_small (by omega),rounds]

section
variable {lb : Nat} {var : List Variable} (holds : Holds null r live) (inside : position < mibloc.length) (start : mibloc.getD position 0 = lb)
variable (order : lb ≤ ub) (small : ub < 2147483647) (proper : ∀ j, lb ≤ j → j ≤ ub → ProperName (mibloc.set position j))
variable (clear : lb < ub → ∀ j, lb ≤ j → j ≤ ub → Clear r (mibloc.set position j))
variable (new : ∀ f ∈ live, ∀ j, lb ≤ j → j ≤ ub → ¬(f.name = mibloc.set position j ∧ f.priority = (priority%256).toNat))
include holds inside start order small proper clear new

theorem range_registered : ∃ r' live', netsnmpRegisterMib null r var mibloc priority ((position : Int)+1) ub info = some (r',.registeredOk) ∧
    Holds null r' live' ∧ ∀ f, f ∈ live' ↔ f ∈ live ∨ ∃ j, lb ≤ j ∧ j ≤ ub ∧ f = rangeEntry mibloc position priority info j := by
  have same := set_same inside start
  have whole : ProperName mibloc := by
    rw [← same]
    exact proper lb le_rfl order
  have entry : rangeEntry mibloc position priority info lb = ⟨mibloc,(priority%256).toNat,info⟩ := by rw [rangeEntry,same]
  have known := first_known holds
  have newHere := fun f mem => new f mem lb le_rfl order
  simp only [same] at newHere
  rcases eq_or_lt_of_le order with rfl | more
  · obtain ⟨r',run,after⟩ := load_new holds whole newHere
    refine ⟨r',_,?_,after,fun f => ?_⟩
    · rw [register_ranged known inside start order small run,Nat.sub_self]
      rfl
    · rw [mem_cons,← entry,← range_first (le_refl lb)]
      exact (or_iff_left fun ⟨j,low,high,_⟩ => by omega).symm
  obtain ⟨ok,slices,rep,good⟩ := holds
  obtain ⟨node,made,begins,ending,_,shown⟩ := newSubtree_proper whole var priority info
  have byte : (priority%256).toNat < 256 := by omega
  have clears : ∀ t ∈ slices, ∀ j, lb ≤ j → j ≤ ub → ¬(mibloc.set position j < t.start ∧ t.start < raiseLast (mibloc.set position j)) :=
    fun t mem j low high => clear_slices rep good (clear more j low high) t mem
  have filled := proper_filled whole
  have first := fun t mem => clears t mem lb le_rfl order
  simp only [same] at first
  obtain ⟨e,equal⟩ : ∃ e, e = rangeEntry mibloc position priority info lb := ⟨_,rfl⟩
  have fields : e.name = mibloc ∧ e.priority = (priority%256).toNat := by
    rw [equal,entry]
    exact ⟨rfl,rfl⟩
  rw [← entry,← equal] at shown
  obtain ⟨r1,slices1,run,ok1,rep1,good1,placed,_,olds⟩ := load_clear ok rep good (fields.1.symm ▸ whole) (fields.2.symm ▸ byte)
    (by rw [fields.1,fields.2]; exact newHere) (by rw [fields.1]; exact first) (by rw [begins,fields.1]) (by rw [ending,fields.1]) shown
  rw [fields.1] at placed olds
  rw [equal] at placed ok1 good1
  have ranging : Ranging null r1 (rangeEntry mibloc position priority info lb :: live) slices1 r.heap.fresh
      (rangeEntry mibloc position priority info lb) mibloc position (lb+1) ub := by
    refine ⟨ok1,rep1,good1,placed,fun t mem j low high => ?_⟩
    have other := proper_filled (proper j (by omega) high)
    rcases olds t mem with ⟨u,old,begin⟩ | begin | begin
    · rw [begin]
      exact clears u old j (by omega) high
    · rw [begin]
      exact same_length_outside other (by rw [length_set])
    · rw [begin]
      exact same_length_outside other (by rw [raiseLast_length filled,length_set])
  obtain ⟨r',live',loop,after,members⟩ := rangeLoop_run inside start small proper ranging (Nat.lt_succ_self lb) (by omega : lb+1+(ub-lb) = ub+1) (by
    intro f mem j low high same
    rcases mem_cons.mp mem with first | old
    · have equal := range_apart inside first same.1
      omega
    · exact new f old j (by omega) high same)
  refine ⟨r',live',?_,after,fun f => ?_⟩
  · rw [register_ranged known inside start order small (made ▸ run _)]
    exact loop
  · rw [members f,mem_cons]
    exact range_first order

end

def RangeEnds (live : List (Entry ρ)) (mibloc : Oid) (position : Nat) (priority : Int) (lb ub : Nat) : Prop :=
  (0 ≤ priority ∧ priority < 256) ∧
    (lb = 1 ∨ (lb = 0 ∧ ub = 0) ∨ (2 ≤ lb ∧ ¬live.any (named (mibloc.set position (ub+1)) priority) = true))

section
variable {lb : Nat} (members : ∀ f, f ∈ live' ↔ f ∈ live ∨ ∃ j, lb ≤ j ∧ j ≤ ub ∧ f = rangeEntry mibloc position priority info j)
variable (inside : position < mibloc.length) (byte : 0 ≤ priority ∧ priority < 256)
variable (new : ∀ f ∈ live, ∀ j, lb ≤ j → j ≤ ub → ¬(f.name = mibloc.set position j ∧ f.priority = (priority%256).toNat))

include byte in
theorem range_named (j : Nat) : named (mibloc.set position j) priority (rangeEntry mibloc position priority info j) = true := by
  refine named_iff.mpr ⟨rfl,?_⟩
  show (((priority%256).toNat : Nat) : Int) = priority
  omega

include new in
theorem entry_left (info : ρ) {j : Nat} (low : lb ≤ j) (high : j ≤ ub) {rest : List (Entry ρ)} (kept : rangeEntry mibloc position priority info j ∈ rest) :
    ¬∀ e, e ∈ rest ↔ e ∈ live := by
  intro same
  exact new _ ((same _).mp kept) j low high ⟨rfl,rfl⟩

include members

include byte in
theorem range_present (low : lb ≤ j) (high : j ≤ ub) : live'.any (named (mibloc.set position j) priority) = true :=
  any_eq_true.mpr ⟨_,(members _).mpr (.inr ⟨j,low,high,rfl⟩),range_named byte j⟩

include inside in
theorem range_behind : live'.any (named (mibloc.set position (ub+1)) priority) = true ↔
    live.any (named (mibloc.set position (ub+1)) priority) = true := by
  rw [any_eq_true,any_eq_true]
  constructor
  · rintro ⟨f,mem,same⟩
    rcases (members f).mp mem with old | ⟨j,_,high,equal⟩
    · exact ⟨f,old,same⟩
    · have value := range_apart inside equal (named_iff.mp same).1
      omega
  · rintro ⟨f,mem,same⟩
    exact ⟨f,(members f).mpr (.inl mem),same⟩

include byte new

theorem range_removed : (e ∈ live' ∧ ¬inRange mibloc position priority lb (ub+1) e) ↔ e ∈ live := by
  rw [members e]
  constructor
  · rintro ⟨old | ⟨j,low,high,same⟩,outside⟩
    · exact old
    · refine absurd ⟨j,low,by omega,?_⟩ outside
      rw [same]
      exact range_named byte j
  · intro old
    refine ⟨.inl old,fun ⟨m,low,high,same⟩ => new e old m low (by omega) ?_⟩
    obtain ⟨name,equal⟩ := named_iff.mp same
    exact ⟨name,by omega⟩

include inside

theorem range_dropped (order : lb ≤ ub) (small : ub < 2147483647) : (∀ e, e ∈ (dropNames priority position ub lb (live'.length+1) live' (mibloc.set position lb)).1 ↔ e ∈ live) ↔
    (lb = 1 ∨ (lb = 0 ∧ ub = 0) ∨ (2 ≤ lb ∧ ¬live.any (named (mibloc.set position (ub+1)) priority) = true)) := by
  have present : ∀ m, lb ≤ m → m ≤ ub → live'.any (named (mibloc.set position m) priority) = true := fun m low high =>
    range_present members byte low high
  have fits : lb < 2^31 ∧ ub < 2^31 := by omega
  have enough := Nat.lt_succ_self live'.length
  have exactly : (∀ m, lb < m → m < ub+1 → m < lb+ub) → lb+ub ≤ ub+1 ∨ ¬live'.any (named (mibloc.set position (ub+1)) priority) = true →
      ∀ e, e ∈ (dropNames priority position ub lb (live'.length+1) live' (mibloc.set position lb)).1 ↔ e ∈ live := by
    intro going ends e
    rw [dropNames_range inside fits (by omega) going (Nat.le_refl lb) (by omega : lb+(ub+1-lb) = ub+1) (by omega)
      (fun m low high => present m low (by omega)) ends enough]
    exact range_removed members byte new
  rcases (by omega : lb = 1 ∨ (lb = 0 ∧ ub = 0) ∨ (lb = 0 ∧ 0 < ub) ∨ 2 ≤ lb) with one | zero | early | late
  · exact iff_of_true (exactly (by omega) (.inl (by omega))) (.inl one)
  · exact iff_of_true (exactly (by omega) (.inl (by omega))) (.inr (.inl zero))
  · refine iff_of_false (entry_left new info order (le_refl ub) ?_) (by omega)
    have left := dropNames_range inside fits (by omega) (fun m low high => by omega) (le_refl lb) (by omega : lb+ub = ub) (by omega)
      (fun m low high => present m low (by omega)) (.inl (by omega)) enough (rangeEntry mibloc position priority info ub)
    refine left.mpr ⟨(members _).mpr (.inr ⟨ub,order,le_rfl,rfl⟩),fun ⟨m,_,high,same⟩ => ?_⟩
    have value := range_apart inside rfl (named_iff.mp same).1
    omega
  by_cases foreign : live.any (named (mibloc.set position (ub+1)) priority) = true
  · refine iff_of_false (fun same => ?_) fun either => ?_
    rotate_left
    · rcases either with one | zero | ⟨_,missing⟩
      · omega
      · omega
      · exact missing foreign
    have behind := (range_behind members inside).mpr foreign
    obtain ⟨f,mem,named⟩ := any_eq_true.mp foreign
    refine dropNames_reached inside fits (by omega) (by omega : ub+1 < lb+ub) (by omega : lb+(ub+1-lb) = ub+1) (fun m low high => ?_) enough f
      ((same f).mpr mem) named
    rcases eq_or_lt_of_le high with equal | less
    · rw [equal]
      exact behind
    · exact present m low (by omega)
  · refine iff_of_true (exactly (by omega) (.inr fun behind => foreign ?_)) (.inr (.inr ⟨late,foreign⟩))
    exact (range_behind members inside).mp behind

end

-- A range that could be registered is taken back exactly if the loop ends with it.
theorem range_restored {lb : Nat} (var : List Variable) (info : ρ) (holds : Holds null r live) (inside : position < mibloc.length)
    (start : mibloc.getD position 0 = lb) (order : lb ≤ ub) (small : ub < 2147483647)
    (proper : ∀ j, lb ≤ j → j ≤ ub → ProperName (mibloc.set position j))
    (clear : lb < ub → ∀ j, lb ≤ j → j ≤ ub → Clear r (mibloc.set position j))
    (new : ∀ f ∈ live, ∀ j, lb ≤ j → j ≤ ub → ¬(f.name = mibloc.set position j ∧ f.priority = (priority%256).toNat)) :
    ∃ r' r'' name code, netsnmpRegisterMib null r var mibloc priority ((position : Int)+1) ub info = some (r',.registeredOk) ∧
      unregisterMibContext r' mibloc priority ((position : Int)+1) ub = some (r'',name,code) ∧
      (Restored r r'' ↔ RangeEnds live mibloc position priority lb ub) ∧ (Restored r r'' → ∀ oid, answer r'' oid = answer r oid) := by
  obtain ⟨r',live',run,after,members⟩ := range_registered holds inside start order small proper clear new
  have same := set_same inside start
  have long : 2 ≤ mibloc.length := by
    have first := (proper lb le_rfl order).1
    rw [length_set] at first
    exact first
  obtain ⟨ok,slices,rep,good⟩ := after
  have enough : (allAddresses slices).length < r'.heap.fresh+1 := Nat.lt_succ_of_le (addresses_bound rep.distinct rep.below)
  obtain ⟨r'',name,taken,left⟩ := unregister_run priority ok rep good long enough (Nat.lt_succ_self live'.length)
  have place : ((position : Int)+1).toNat-1 = position ∧ ((position : Int)+1).toNat = position+1 := by omega
  have back : unregisterMibContext r' mibloc priority ((position : Int)+1) ub =
      some (r'',name,(dropNames priority position ub lb (live'.length+1) live' mibloc).2) := by
    rw [unregisterMibContext,place.1,place.2,start,toInt_small (by omega),if_pos ⟨by omega,inside⟩]
    exact taken
  refine ⟨r',r'',name,_,run,back,?_,restored_answer holds left⟩
  · rw [restored_live holds left,← same]
    by_cases byte : 0 ≤ priority ∧ priority < 256
    · rw [range_dropped members inside byte new order small,same]
      exact (and_iff_right byte).symm
    -- no priority is stored that would be found again
    refine iff_of_false ?_ fun ends => byte ends.1
    have missing : ¬live'.any (named (mibloc.set position lb) priority) = true := by
      intro found
      obtain ⟨f,member,equal⟩ := any_eq_true.mp found
      have stored := (ok.bounds f member).2.2
      have value := (named_iff.mp equal).2
      omega
    rw [dropNames,if_neg missing]
    exact entry_left new info (le_refl lb) order ((members _).mpr (.inr ⟨lb,le_rfl,order,rfl⟩))

theorem null_starts (made : nullContext 0 = some start)
    (list : sliceList start = some columns) : ∀ column ∈ columns, ∀ node ∈ column, node.start ∈ [[0],[1],[2]] := by
  have shown : ((nullContext 0).bind fun start => (sliceList start).map fun columns => columns.map fun column => column.map Subtree.start) =
      some [[[0]],[[1]],[[2]]] := by decide
  rw [made,bind_some,list,Option.map_some] at shown
  intro column mem node listed
  have inside : column.map Subtree.start ∈ [[[0]],[[1]],[[2]]] := by
    rw [← Option.some.inj shown]
    exact List.mem_map_of_mem mem
  have begins := List.mem_map_of_mem (f := Subtree.start) listed
  simp only [mem_cons,not_mem_nil,or_false] at inside
  rcases inside with same | same | same
  all_goals
    rw [same,mem_singleton] at begins
    simp [begins]

theorem range_restored_one : ∃ start r' r'' name code, nullContext 0 = some start ∧
    netsnmpRegisterMib 0 start [] [1,1] 127 2 3 7 = some (r',.registeredOk) ∧
    unregisterMibContext r' [1,1] 127 2 3 = some (r'',name,code) ∧ Restored start r'' := by
  obtain ⟨start,made,holds⟩ := nullContext_holds 0
  have clear : ∀ j, Clear start (([1,1] : Oid).set 1 j) := by
    intro j columns list column member node listed
    have begins := null_starts made list column member node listed
    simp only [mem_cons,not_mem_nil,or_false] at begins
    rcases begins with same | same | same
    all_goals
      rw [same]
      simp [raiseLast,List.cons_lt_cons_iff]
  obtain ⟨r',r'',name,code,registered,taken,restored,_⟩ := range_restored [] 7 holds (by decide : 1 < ([1,1] : Oid).length) rfl
    (by decide : 1 ≤ 3) (by decide) (fun j low high => ⟨by simp,by simp,by simp,by simp; omega⟩) (fun _ j _ _ => clear j)
    (by simp [roots] : ∀ f ∈ roots 0, ∀ j, 1 ≤ j → j ≤ 3 → ¬(f.name = ([1,1] : Oid).set 1 j ∧ f.priority = ((127 : Int)%256).toNat))
  exact ⟨start,r',r'',name,code,made,registered,taken,restored.mpr ⟨by decide,.inl rfl⟩⟩

-- From 0 to 2, the last value is left.
theorem range_left : ∃ start r' r'' name code, nullContext 0 = some start ∧
    netsnmpRegisterMib 0 start [] [1,0] 127 2 2 7 = some (r',.registeredOk) ∧
    unregisterMibContext r' [1,0] 127 2 2 = some (r'',name,code) ∧ answer start [1,2] = some (some ⟨[1],0,0⟩) ∧
    answer r'' [1,2] = some (some ⟨[1,2],127,7⟩) := by
  have run : ((nullContext 0).bind fun start => (netsnmpRegisterMib 0 start [] [1,0] 127 2 2 7).bind fun out =>
      (unregisterMibContext out.1 [1,0] 127 2 2).map fun back => (out.2,answer start [1,2],answer back.1 [1,2])) =
        some (.registeredOk,some (some ⟨[1],0,0⟩),some (some ⟨[1,2],127,7⟩)) := by decide
  obtain ⟨start,made,run⟩ := Option.bind_eq_some_iff.mp run
  obtain ⟨⟨r',code⟩,registered,run⟩ := Option.bind_eq_some_iff.mp run
  obtain ⟨⟨r'',name,result⟩,taken,shown⟩ := Option.map_eq_some_iff.mp run
  obtain ⟨ok,before,after⟩ : code = .registeredOk ∧ answer start [1,2] = some (some ⟨[1],0,0⟩) ∧
      answer r'' [1,2] = some (some ⟨[1,2],127,7⟩) := by simpa using shown
  subst ok
  exact ⟨start,r',r'',name,result,made,registered,taken,before,after⟩

end

end NetSnmp.AgentRegistry
