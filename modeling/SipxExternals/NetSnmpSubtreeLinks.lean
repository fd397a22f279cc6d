import SipxExternals.FoundationsLex
import SipxExternals.NetSnmpSubtree

namespace NetSnmp.AgentRegistry
open Foundations.Heaps Foundations.Lex NetSnmp.AsnTypes List
open Option (bind_eq_bind bind_eq_some_iff bind_some map_some)
open Heap (adjust_adjust adjust_cells adjust_congr put_adjust)

theorem compareLlLoop_place : ∀ (off : Nat) (left right : Oid),
    compareLlLoop off left right = (snmpOidCompare left right,off+place left right-1)
  | off,[],[] => by simp [compareLlLoop,snmpOidCompare,place]
  | off,[],_ :: _ => by simp [compareLlLoop,snmpOidCompare,place]
  | off,_ :: _,[] => by simp [compareLlLoop,snmpOidCompare,place]
  | off,a :: left,b :: right => by
    rw [compareLlLoop,snmpOidCompare,place]
    by_cases same : a = b
    · have positive := place_pos left right
      rw [if_neg (by simp [same]),if_neg (by simp [same]),if_pos same,compareLlLoop_place (off+1) left right]
      refine Prod.ext rfl ?_
      show off+1+place left right-1 = off+(place left right+1)-1
      omega
    · rw [if_pos same,if_pos same,if_neg same]
      simp

theorem compareLl_place : netsnmpOidCompareLl left right = (snmpOidCompare left right,place left right) := by
  rw [netsnmpOidCompareLl,compareLlLoop_place,Nat.add_sub_cancel_left]

section
variable {ρ : Type} {h : Heap (Subtree ρ)}

def nextSet (pointers : List Nat) (thenext : Option Nat) (start : Oid) (a : Nat) (v : Subtree ρ) : Subtree ρ :=
  if a ∈ pointers then {v with next := thenext}
  else if pointers ≠ [] ∧ some a = thenext then {v with oidOff := place start v.start}
  else v

def prevSet (pointers : List Nat) (theprev : Option (Nat × Oid)) (a : Nat) (v : Subtree ρ) : Subtree ρ :=
  if a ∈ pointers then
    match theprev with
    | none => {v with prev := none}
    | some (p,start) => {v with prev := some p, oidOff := place start v.start}
  else v

theorem changeNext_set (held : h.cells ptr = some node) (after : ∀ n ∈ thenext, n ≠ ptr ∧ ∃ other, h.cells n = some other) :
    netsnmpSubtreeChangeNext h ptr thenext = some (h.adjust (nextSet [ptr] thenext node.start)) := by
  rw [netsnmpSubtreeChangeNext,held]
  cases thenext with
  | none =>
    simp only [bind_eq_bind,bind_some,Option.some.injEq]
    exact put_adjust held (by simp [nextSet]) fun a v other => by simp [nextSet,other]
  | some n =>
    obtain ⟨apart,other,there⟩ := after n rfl
    have still : (h.put ptr {node with next := some n}).cells n = some other := by simp [apart,there]
    simp only [bind_eq_bind,bind_some,still,Option.some.injEq]
    have first := put_adjust (f := fun a v => if a = ptr then {v with next := some n} else v) held (if_pos rfl)
      fun a v other => if_neg other
    rw [first] at still ⊢
    have second := put_adjust (f := fun a v => if a = n then {v with oidOff := place node.start v.start} else v) still
      (if_pos rfl) fun a v other => if_neg other
    rw [compareLl_place]
    refine second.trans ?_
    rw [adjust_adjust]
    refine adjust_congr _ _ fun a v _ => ?_
    by_cases same : a = ptr
    · simp [nextSet,same,apart.symm]
    · simp [nextSet,same]

theorem changePrev_set (held : h.cells ptr = some node)
    (before : ∀ p ∈ theprev, p.1 ≠ ptr ∧ ∃ other, h.cells p.1 = some other ∧ other.start = p.2) :
    netsnmpSubtreeChangePrev h ptr (theprev.map Prod.fst) = some (h.adjust (prevSet [ptr] theprev)) := by
  rw [netsnmpSubtreeChangePrev,held]
  cases theprev with
  | none =>
    simp only [bind_eq_bind,bind_some,Option.map_none,Option.some.injEq]
    exact put_adjust held (by simp [prevSet]) fun a v other => by simp [prevSet,other]
  | some p =>
    obtain ⟨apart,other,there,begins⟩ := before p rfl
    have still : (h.put ptr {node with prev := some p.1}).cells p.1 = some other := by simp [apart,there]
    simp only [bind_eq_bind,bind_some,map_some,still,Option.some.injEq,Heap.put_put]
    exact put_adjust held (by simp [prevSet,compareLl_place,begins]) fun a v other => by simp [prevSet,other]

section
variable (pointers : List Nat)
include pointers

theorem nextSet_kind : ∃ next oidOff, nextSet pointers thenext start a v = {v with next := next, oidOff := oidOff} := by
  rw [nextSet]
  split
  · exact ⟨thenext,v.oidOff,rfl⟩
  · split
    · exact ⟨v.next,_,rfl⟩
    · exact ⟨v.next,v.oidOff,rfl⟩

theorem prevSet_kind (theprev : Option (Nat × Oid)) (a : Nat) :
    ∃ prev oidOff, prevSet pointers theprev a v = {v with prev := prev, oidOff := oidOff} := by
  unfold prevSet
  split
  · split
    · exact ⟨none,v.oidOff,rfl⟩
    · exact ⟨_,_,rfl⟩
  · exact ⟨v.prev,v.oidOff,rfl⟩

theorem nextSet_start : (nextSet pointers thenext start a v).start = v.start := by
  obtain ⟨next,oidOff,same⟩ := nextSet_kind pointers
  rw [same]

theorem prevSet_start : (prevSet pointers theprev a v).start = v.start := by
  obtain ⟨prev,oidOff,same⟩ := prevSet_kind pointers theprev a
  rw [same]

end

theorem changeNext_keeps (changed : netsnmpSubtreeChangeNext h ptr thenext = some h') : keepsLink Subtree.children h h' := by
  obtain ⟨node,held,rest⟩ := bind_eq_some_iff.mp changed
  have first : keepsLink Subtree.children h (h.put ptr {node with next := thenext}) := keepsLink_put held rfl
  cases thenext with
  | none =>
    cases rest
    exact first
  | some n =>
    obtain ⟨other,there,last⟩ := bind_eq_some_iff.mp rest
    cases last
    exact keepsLink_trans first (keepsLink_put there rfl)

theorem changePrev_keeps (changed : netsnmpSubtreeChangePrev h ptr theprev = some h') : keepsLink Subtree.children h h' := by
  obtain ⟨node,held,rest⟩ := bind_eq_some_iff.mp changed
  have first : keepsLink Subtree.children h (h.put ptr {node with prev := theprev}) := keepsLink_put held rfl
  cases theprev with
  | none =>
    cases rest
    exact first
  | some p =>
    obtain ⟨other,there,last⟩ := bind_eq_some_iff.mp rest
    cases last
    have again : (h.put ptr {node with prev := some p}).cells ptr = some {node with prev := some p} := by simp
    exact keepsLink_trans first (keepsLink_put again rfl)

section
variable {pointers : List Nat} (chain : Chain Subtree.children h pointer pointers) (distinct : pointers.Nodup)
variable (below : ∀ a ∈ pointers, a < h.fresh)
include chain distinct below

theorem changeNextAll_set (held : ∀ a ∈ pointers, ∃ node, h.cells a = some node ∧ node.start = start)
    (after : ∀ n ∈ thenext, n ∉ pointers ∧ ∃ other, h.cells n = some other) :
    changeNextAll h pointer thenext = some (h.adjust (nextSet pointers thenext start)) := by
  rw [changeNextAll,walk_fold (fun _ _ _ => changeNext_keeps) chain (addresses_bound distinct below)]
  clear chain below
  induction pointers generalizing h with
  | nil =>
    rw [Heap.adjust_same fun a v _ => by simp [nextSet]]
    rfl
  | cons a pointers ih =>
    obtain ⟨node,here,begins⟩ := held a (.head _)
    have first := changeNext_set here fun n mem =>
      ⟨fun same => (after n mem).1 (same ▸ (.head _)),(after n mem).2⟩
    obtain ⟨new,others⟩ := nodup_cons.mp distinct
    rw [foldlM_cons,first]
    show foldlM _ (h.adjust (nextSet [a] thenext node.start)) pointers = _
    rw [ih others ?_ ?_,adjust_adjust,begins]
    · refine congrArg some (adjust_congr _ _ fun b v there => ?_)
      by_cases same : b = a
      · subst same
        have apart : some b ≠ thenext := fun equal => (after b equal.symm).1 (.head _)
        simp [nextSet,new,apart]
      by_cases next : some b = thenext
      · have outside : b ∉ pointers := fun inside => (after b next.symm).1 (.tail _ inside)
        simp [nextSet,same,next,outside]
      · simp [nextSet,same,next]
    · intro b mem
      obtain ⟨other,there,start⟩ := held b (.tail _ mem)
      exact ⟨_,by rw [adjust_cells,there]; rfl,by rw [nextSet_start]; exact start⟩
    · intro n mem
      obtain ⟨outside,other,there⟩ := after n mem
      exact ⟨fun inside => outside (.tail _ inside),_,by rw [adjust_cells,there]; rfl⟩

theorem changePrevAll_set (held : ∀ a ∈ pointers, ∃ node, h.cells a = some node)
    (before : ∀ p ∈ theprev, p.1 ∉ pointers ∧ ∃ other, h.cells p.1 = some other ∧ other.start = p.2) :
    changePrevAll h pointer (theprev.map Prod.fst) = some (h.adjust (prevSet pointers theprev)) := by
  rw [changePrevAll,walk_fold (fun _ _ _ => changePrev_keeps) chain (addresses_bound distinct below)]
  clear chain below
  induction pointers generalizing h with
  | nil =>
    rw [Heap.adjust_same fun a v _ => by simp [prevSet]]
    rfl
  | cons a pointers ih =>
    obtain ⟨node,here⟩ := held a (.head _)
    have first := changePrev_set here fun p mem =>
      ⟨fun same => (before p mem).1 (same ▸ (.head _)),(before p mem).2⟩
    obtain ⟨new,others⟩ := nodup_cons.mp distinct
    rw [foldlM_cons,first]
    show foldlM _ (h.adjust (prevSet [a] theprev)) pointers = _
    rw [ih others ?_ ?_,adjust_adjust]
    · refine congrArg some (adjust_congr _ _ fun b v there => ?_)
      by_cases same : b = a
      · subst same
        simp [prevSet,new]
      · simp [prevSet,same]
    · intro b mem
      obtain ⟨other,there⟩ := held b (.tail _ mem)
      exact ⟨_,by rw [adjust_cells,there]; rfl⟩
    · intro p mem
      obtain ⟨outside,other,there,start⟩ := before p mem
      exact ⟨fun inside => outside (.tail _ inside),_,by rw [adjust_cells,there]; rfl,by
        rw [prevSet_start]; exact start⟩

end

end

structure Entry (ρ : Type) where
  name : Oid
  priority : Nat
  info : ρ
  deriving DecidableEq

-- A slice of the tree with its children, from the node in the list on.
structure Slice (ρ : Type) where
  start : Oid
  ending : Oid
  column : List (Nat × Entry ρ)

section
variable {ρ : Type} {h h' : Heap (Subtree ρ)} {start ending start' ending' : Oid} {prev next tail prev' next' : Option Nat}
variable {column : List (Nat × Entry ρ)}

structure Shows (node : Subtree ρ) (start ending : Oid) (e : Entry ρ) (prev next children : Option Nat) : Prop where
  name : node.name = e.name
  priority : node.priority = e.priority
  info : node.info = e.info
  start : node.start = start
  ending : node.ending = ending
  prev : node.prev = prev
  next : node.next = next
  children : node.children = children

def headOr (tail : Option Nat) : List (Nat × Entry ρ) → Option Nat
  | [] => tail
  | (a,_) :: _ => some a

def addresses (column : List (Nat × Entry ρ)) : List Nat := column.map Prod.fst

def ColumnAt (h : Heap (Subtree ρ)) (start ending : Oid) (prev next tail : Option Nat) : List (Nat × Entry ρ) → Prop
  | [] => True
  | (a,e) :: rest =>
    (∃ node, h.cells a = some node ∧ Shows node start ending e prev next (headOr tail rest)) ∧
      ColumnAt h start ending prev next tail rest

theorem headOr_append (tail : Option Nat) : headOr tail (front++back) = headOr (headOr tail back) front := by
  cases front with
  | nil | cons first front => rfl

theorem columnAt_append : ColumnAt h start ending prev next tail (front++back) ↔
    ColumnAt h start ending prev next (headOr tail back) front ∧ ColumnAt h start ending prev next tail back := by
  induction front with
  | nil => simp [ColumnAt]
  | cons first front ih =>
    simp [ColumnAt,ih,headOr_append,and_assoc]

theorem columnAt_map (each : ∀ a e, (a,e) ∈ column → ∀ node children, h.cells a = some node →
      Shows node start ending e prev next children → ∃ other, h'.cells a = some other ∧ Shows other start' ending' e prev' next' children)
    (held : ColumnAt h start ending prev next tail column) : ColumnAt h' start' ending' prev' next' tail column := by
  induction column with
  | nil => trivial
  | cons first column ih =>
    obtain ⟨a,e⟩ := first
    obtain ⟨⟨node,here,shown⟩,rest⟩ := held
    exact ⟨each a e (.head _) node _ here shown,ih (fun b f mem => each b f (.tail _ mem)) rest⟩

theorem columnAt_frame (same : ∀ a ∈ addresses column, h'.cells a = h.cells a)
    (held : ColumnAt h start ending prev next tail column) : ColumnAt h' start ending prev next tail column :=
  columnAt_map (fun a _ mem node _ here shown => ⟨node,by
    rw [same a (mem_map_of_mem mem)]; exact here,shown⟩) held

theorem columnAt_next (inside : ∀ a ∈ addresses column, a ∈ pointers)
    (held : ColumnAt h start ending prev next tail column) :
    ColumnAt (h.adjust (nextSet pointers next' first)) start ending prev next' tail column := by
  refine columnAt_map (fun a e mem node children here shown => ?_) held
  refine ⟨_,by rw [adjust_cells,here]; rfl,?_⟩
  rw [nextSet,if_pos (inside a (mem_map_of_mem mem))]
  exact {shown with next := rfl}

theorem columnAt_next_other (outside : ∀ a ∈ addresses column, a ∉ pointers)
    (held : ColumnAt h start ending prev next tail column) :
    ColumnAt (h.adjust (nextSet pointers next' first)) start ending prev next tail column := by
  refine columnAt_map (fun a e mem node children here shown => ?_) held
  refine ⟨_,by rw [adjust_cells,here]; rfl,?_⟩
  rw [nextSet,if_neg (outside a (mem_map_of_mem mem))]
  split
  · exact {shown with}
  · exact shown

theorem columnAt_prev (inside : ∀ a ∈ addresses column, a ∈ pointers)
    (held : ColumnAt h start ending prev next tail column) :
    ColumnAt (h.adjust (prevSet pointers theprev)) start ending (theprev.map Prod.fst) next tail column := by
  refine columnAt_map (fun a e mem node children here shown => ?_) held
  refine ⟨_,by rw [adjust_cells,here]; rfl,?_⟩
  unfold prevSet
  rw [if_pos (inside a (mem_map_of_mem mem))]
  cases theprev with
  | none | some p => exact {shown with prev := rfl}

theorem columnAt_prev_other
    (outside : ∀ a ∈ addresses column, a ∉ pointers) (held : ColumnAt h start ending prev next tail column) :
    ColumnAt (h.adjust (prevSet pointers theprev)) start ending prev next tail column := by
  refine columnAt_map (fun a e mem node children here shown => ?_) held
  refine ⟨_,by rw [adjust_cells,here]; rfl,?_⟩
  unfold prevSet
  rw [if_neg (outside a (mem_map_of_mem mem))]
  exact shown

theorem columnAt_cells (held : ColumnAt h start ending prev next tail column) :
    ∀ a ∈ addresses column, ∃ node, h.cells a = some node ∧ node.start = start := by
  induction column with
  | nil =>
    intro a wrong
    cases wrong
  | cons first column ih =>
    obtain ⟨⟨node,here,shown⟩,rest⟩ := held
    exact forall_mem_cons.mpr ⟨⟨node,here,shown.start⟩,ih rest⟩

theorem columnAt_chain (held : ColumnAt h start ending prev next none column) :
    Chain Subtree.children h (headOr none column) (addresses column) := by
  induction column with
  | nil => rfl
  | cons first column ih =>
    obtain ⟨⟨node,here,shown⟩,rest⟩ := held
    exact ⟨rfl,node,here,shown.children ▸ ih rest⟩

end

section
variable {ρ : Type} {h h' : Heap (Subtree ρ)} {before : Option (Nat × Oid)} {after : Option Nat} {slices : List (Slice ρ)}

def Slice.mark (s : Slice ρ) : Option (Nat × Oid) := (headOr none s.column).map fun a => (a,s.start)

def headAfter (after : Option Nat) : List (Slice ρ) → Option Nat
  | [] => after
  | s :: _ => headOr none s.column

def lastMark (before : Option (Nat × Oid)) : List (Slice ρ) → Option (Nat × Oid)
  | [] => before
  | s :: rest => lastMark s.mark rest

structure Held (h : Heap (Subtree ρ)) (before : Option (Nat × Oid)) (after : Option Nat) (s : Slice ρ) : Prop where
  filled : s.column ≠ []
  column : ColumnAt h s.start s.ending (before.map Prod.fst) after none s.column
  offset : ∀ b ∈ before, ∀ a ∈ headOr none s.column, ∀ node, h.cells a = some node → node.oidOff = place b.2 s.start

-- The nodes of a part of the list of slices, each with the heads beside it.
def Linked (h : Heap (Subtree ρ)) (after : Option Nat) : Option (Nat × Oid) → List (Slice ρ) → Prop
  | _,[] => True
  | before,s :: rest => Held h before (headAfter after rest) s ∧ Linked h after s.mark rest

def allAddresses (slices : List (Slice ρ)) : List Nat := slices.flatMap fun s => addresses s.column

structure Represents (r : Registry ρ) (slices : List (Slice ρ)) : Prop where
  first : r.first = headAfter none slices
  linked : Linked r.heap none none slices
  distinct : (allAddresses slices).Nodup
  below : ∀ a ∈ allAddresses slices, a < r.heap.fresh

theorem headAfter_append (after : Option Nat) :
    headAfter after (left++right) = headAfter (headAfter after right) left := by
  cases left with
  | nil | cons s left => rfl

theorem lastMark_append (before : Option (Nat × Oid)) :
    lastMark before (left++right) = lastMark (lastMark before left) right := by
  induction left generalizing before with
  | nil => rfl
  | cons s left ih => exact ih s.mark

theorem linked_append : Linked h after before (left++right) ↔
    Linked h (headAfter after right) before left ∧ Linked h after (lastMark before left) right := by
  induction left generalizing before with
  | nil => simp [Linked,lastMark]
  | cons s left ih => simp [Linked,ih,headAfter_append,lastMark,and_assoc]

theorem headOr_member (head : a ∈ headOr none column) : a ∈ addresses column := by
  cases column with
  | nil => cases head
  | cons first rest =>
    cases head
    exact .head _

theorem held_kept (held : Held h before after s) (begins : s'.start = s.start) (head : headOr none s'.column = headOr none s.column)
    (column : ColumnAt h' s'.start s'.ending (before.map Prod.fst) after' none s'.column)
    (kept : ∀ a ∈ headOr none s.column, (h'.cells a).map Subtree.oidOff = (h.cells a).map Subtree.oidOff) :
    Held h' before after' s' where
  filled empty := by
    rw [empty] at head
    cases hcase : s.column with
    | nil => exact held.filled hcase
    | cons first rest =>
      rw [hcase] at head
      cases head
  column := column
  offset b inside a first node here := by
    rw [head] at first
    have same := kept a first
    rw [here] at same
    obtain ⟨old,there,equal⟩ := Option.map_eq_some_iff.mp same.symm
    rw [begins,← equal]
    exact held.offset b inside a first old there

theorem held_frame (same : ∀ a ∈ addresses s.column, h'.cells a = h.cells a) (held : Held h before after s) :
    Held h' before after s :=
  held_kept held rfl rfl (columnAt_frame same held.column) fun a head => by rw [same a (headOr_member head)]

theorem linked_frame (same : ∀ a ∈ allAddresses slices, h'.cells a = h.cells a) (linked : Linked h after before slices) :
    Linked h' after before slices := by
  induction slices generalizing before with
  | nil => trivial
  | cons s slices ih =>
    refine ⟨held_frame (fun a mem => same a ?_) linked.1,ih (fun a mem => same a ?_) linked.2⟩
    · exact mem_append_left _ mem
    · exact mem_append_right _ mem

theorem held_head (held : Held h before after s) : ∃ a e rest node, s.column = (a,e) :: rest ∧ h.cells a = some node ∧
    Shows node s.start s.ending e (before.map Prod.fst) after (headOr none rest) ∧
      ∀ b ∈ before, node.oidOff = place b.2 s.start := by
  have column := held.column
  have offset := held.offset
  cases hcase : s.column with
  | nil => exact absurd hcase held.filled
  | cons first rest =>
    obtain ⟨a,e⟩ := first
    rw [hcase] at column offset
    obtain ⟨⟨node,here,shown⟩,_⟩ := column
    exact ⟨a,e,rest,node,rfl,here,shown,fun b inside => offset b inside a rfl node here⟩

end

section
variable {ρ : Type} {h : Heap (Subtree ρ)} {name : Oid}

-- The loop gives the last one of the slices at the front that start at or below the name.
theorem findPrevLoop_slices : ∀ {rest : List (Slice ρ)} {before : Option (Nat × Oid)} {llOff fuel : Nat},
    Linked h none before rest → rest.length ≤ fuel → (∀ b ∈ before, b.2 ≤ name ∧ llOff = place name b.2) →
    (before = none → llOff = 0) → findPrevLoop h name fuel (before.map Prod.fst) (headAfter none rest) llOff =
      some ((lastMark before (rest.takeWhile fun s => s.start ≤ name)).map Prod.fst)
  | [],_,_,_,_,_,_,_ => by
    rw [headAfter,findPrevLoop]
    rfl
  | s :: rest,before,llOff,fuel,linked,enough,behind,unread => by
    obtain ⟨held,others⟩ := linked
    obtain ⟨a,e,below,node,column,here,shown,offset⟩ := held_head held
    have head : headAfter none (s :: rest) = some a := by rw [headAfter,column]; rfl
    have mark : s.mark = some (a,s.start) := by rw [Slice.mark,column]; rfl
    cases fuel with
    | zero => simp at enough
    | succ fuel =>
      have deeper : ∀ {llOff : Nat}, s.start ≤ name → llOff = place name s.start →
          findPrevLoop h name fuel (some a) node.next llOff =
            some ((lastMark before ((s :: rest).takeWhile fun s => s.start ≤ name)).map Prod.fst) := by
        intro llOff low same
        have next := findPrevLoop_slices others (Nat.le_of_succ_le_succ enough)
          (fun b inside => by rw [mark] at inside; cases inside; exact ⟨low,same⟩) (fun wrong => by rw [mark] at wrong; cases wrong)
        rw [mark] at next
        rw [takeWhile_cons_of_pos (by simpa using low),lastMark,mark,shown.next]
        exact next
      rw [head,findPrevLoop,here]
      simp only [bind_eq_bind,bind_some,compareLl_place,compare_less,shown.start]
      split
      · -- the comparison is left out
        rename_i skipped
        cases before with
        | none => exact absurd (unread rfl) skipped.1
        | some b =>
          obtain ⟨low,same⟩ := behind b rfl
          have later : place name b.2 < place b.2 s.start := by
            have more := skipped.2.2
            rw [offset b rfl,same] at more
            exact more
          obtain ⟨inside,equal⟩ := place_kept later low
          exact deeper inside (by rw [same,equal])
      · split
        · rename_i less
          rw [takeWhile_cons_of_neg (by simpa using less)]
          rfl
        · rename_i less
          exact deeper (not_lt.mp less) rfl

variable {r : Registry ρ} {left right : List (Slice ρ)} {s : Slice ρ}

theorem slices_bound (rep : Represents r slices) : slices.length ≤ r.heap.fresh := by
  have longer : ∀ {slices : List (Slice ρ)} {before : Option (Nat × Oid)}, Linked r.heap none before slices →
      slices.length ≤ (allAddresses slices).length := by
    intro slices
    induction slices with
    | nil => exact fun _ => Nat.zero_le _
    | cons s slices ih =>
      intro before linked
      have filled : 0 < s.column.length := length_pos_of_ne_nil linked.1.filled
      have rest := ih linked.2
      simp only [allAddresses,flatMap_cons,length_append,length_cons,addresses,length_map] at rest ⊢
      omega
  exact (longer rep.linked).trans (addresses_bound rep.distinct rep.below)

theorem findPrev_slices (rep : Represents r slices)
    (begins : subtree = none ∨ subtree = r.first) : netsnmpSubtreeFindPrev r name subtree =
      some ((lastMark none (slices.takeWhile fun s => s.start ≤ name)).map Prod.fst) := by
  have start : subtree.or r.first = headAfter none slices := by
    rcases begins with rfl | rfl
    · exact rep.first
    rw [← rep.first]
    cases r.first with
    | none | some a => rfl
  rw [netsnmpSubtreeFindPrev,start]
  exact findPrevLoop_slices rep.linked (slices_bound rep) (fun _ wrong => by cases wrong) fun _ => rfl

theorem find_slice (rep : Represents r (left++s :: right)) (begins : subtree = none ∨ subtree = r.first)
    (low : ∀ t ∈ left, t.start ≤ name) (here : s.start ≤ name) (high : ∀ t ∈ right.head?, name < t.start) :
    netsnmpSubtreeFind r name subtree = some (if name < s.ending then headOr none s.column else none) := by
  have taken : (left++s :: right).takeWhile (fun t => t.start ≤ name) = left++[s] := by
    have rest : right.takeWhile (fun t => t.start ≤ name) = [] := by
      cases right with
      | nil => rfl
      | cons t right => exact takeWhile_cons_of_neg (by simpa using high t rfl)
    rw [takeWhile_append_of_pos (by simpa using low),takeWhile_cons_of_pos (by simpa using here),rest]
  obtain ⟨held,_⟩ := (linked_append.mp rep.linked).2
  obtain ⟨a,e,below,node,column,there,shown,_⟩ := held_head held
  rw [netsnmpSubtreeFind,findPrev_slices rep begins,taken,lastMark_append,lastMark,lastMark,Slice.mark,column]
  simp only [headOr,map_some,bind_eq_bind,bind_some,there,compare_less,shown.ending]
  split
  · rfl
  · rfl

end

end NetSnmp.AgentRegistry
