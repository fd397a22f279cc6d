import SipxExternals.NetSnmpSubtreeLinks

namespace NetSnmp.AgentRegistry
open Foundations.Heaps Foundations.Lex NetSnmp.AsnTypes List
open Heap (adjust_cells put_cells)

section
variable {ρ : Type} {h h' : Heap (Subtree ρ)} {start ending name : Oid} {prev next : Option Nat}
variable {column rest : List (Nat × Entry ρ)} {nexts : List Nat}

def renumber : Nat → List (Nat × Entry ρ) → List (Nat × Entry ρ)
  | _,[] => []
  | n,(_,e) :: rest => (n,e) :: renumber (n+1) rest

theorem addresses_renumber : ∀ (n : Nat) (column : List (Nat × Entry ρ)), addresses (renumber n column) = range' n column.length
  | _,[] => rfl
  | n,(_,e) :: rest => by
    have deeper := addresses_renumber (n+1) rest
    rw [addresses] at deeper ⊢
    rw [renumber,map_cons,deeper,length_cons,range'_succ]

theorem mem_renumber : a ∈ addresses (renumber n column) ↔ n ≤ a ∧ a < n+column.length := by
  rw [addresses_renumber,mem_range'_1]

theorem renumber_entries : ∀ (n : Nat) (column : List (Nat × Entry ρ)), (renumber n column).map Prod.snd = column.map Prod.snd
  | _,[] => rfl
  | n,(_,e) :: rest => by rw [renumber,map_cons,map_cons,renumber_entries (n+1) rest]

-- The heap when the first node and the children behind it have been copied, before the links are set.
structure Copied (h h' : Heap (Subtree ρ)) (a : Nat) (e : Entry ρ) (rest : List (Nat × Entry ρ)) (nexts : List Nat)
    (start ending name : Oid) (prev next : Option Nat) : Prop where
  old : ∃ node, h'.cells a = some node ∧ Shows node start name e prev next (headOr none rest) ∧
    (h.cells a).map Subtree.oidOff = some node.oidOff
  new : ∃ node, h'.cells h.fresh = some node ∧ Shows node name ending e prev next (headOr none (renumber (h.fresh+1) rest))
  behind : ∃ next', ColumnAt h' start name prev next' none rest
  copies : ∃ prev', ColumnAt h' name ending prev' next none (renumber (h.fresh+1) rest)
  fresh : h'.fresh = h.fresh+1+rest.length
  others : ∀ x, x ≠ a → x ∉ addresses rest → x ∉ nexts → x < h.fresh → h'.cells x = h.cells x
  following : ∀ x ∈ nexts, ∀ p start, (h'.cells x).map (fun v => {v with prev := p, oidOff := place start v.start}) =
    (h.cells x).map fun v => {v with prev := p, oidOff := place start v.start}

structure SplitOf (h h' : Heap (Subtree ρ)) (column : List (Nat × Entry ρ)) (nexts : List Nat)
    (start ending name : Oid) (prev next : Option Nat) : Prop where
  first : ColumnAt h' start name prev (some h.fresh) none column
  second : ColumnAt h' name ending (headOr none column) next none (renumber h.fresh column)
  fresh : h'.fresh = h.fresh+column.length
  others : ∀ x, x ∉ addresses column → x ∉ nexts → x < h.fresh → h'.cells x = h.cells x
  following : ∀ x ∈ nexts, h'.cells x = (h.cells x).map fun v => {v with prev := some h.fresh, oidOff := place name v.start}
  offset : ∀ a ∈ headOr none column, (h'.cells a).map Subtree.oidOff = (h.cells a).map Subtree.oidOff
  newOffset : (h'.cells h.fresh).map Subtree.oidOff = some (place start name)

def relinked (h : Heap (Subtree ρ)) (olds news nexts : List Nat) (a fresh : Nat) (start name : Oid) : Heap (Subtree ρ) :=
  ((h.adjust (nextSet olds (some fresh) start)).adjust (prevSet news (some (a,start)))).adjust (prevSet nexts (some (fresh,name)))

theorem nextSet_keeps : keepsLink Subtree.children h (h.adjust (nextSet pointers thenext first)) :=
  keepsLink_adjust fun x v => by
    obtain ⟨_,_,same⟩ := nextSet_kind pointers
    rw [same]

theorem prevSet_keeps : keepsLink Subtree.children h (h.adjust (prevSet pointers theprev)) :=
  keepsLink_adjust fun x v => by
    obtain ⟨_,_,same⟩ := prevSet_kind pointers theprev x
    rw [same]

abbrev newAddresses (h : Heap (Subtree ρ)) (rest : List (Nat × Entry ρ)) : List Nat := h.fresh :: addresses (renumber (h.fresh+1) rest)

section
variable {h3 : Heap (Subtree ρ)} {a : Nat} {e : Entry ρ} (copied : Copied h h3 a e rest nexts start ending name prev next)
variable (below : ∀ x ∈ a :: addresses rest++nexts, x < h.fresh)
include copied below

theorem new_bounds (x : Nat) (mem : x ∈ newAddresses h rest) :
    h.fresh ≤ x ∧ x < h3.fresh ∧ x ∉ a :: addresses rest ∧ x ∉ nexts := by
  have new : x ∈ addresses (renumber h.fresh ((a,e) :: rest)) := mem
  have fresh := copied.fresh
  rw [mem_renumber,length_cons] at new
  refine ⟨new.1,by omega,fun old => ?_,fun later => ?_⟩
  · have low := below x (mem_append_left _ old)
    omega
  · have low := below x (mem_append_right _ later)
    omega

theorem retainLinks_run (distinct : (a :: addresses rest++nexts).Nodup) (chain : Chain Subtree.children h next nexts) : retainLinks h3 a h.fresh =
    some (relinked h3 (a :: addresses rest) (newAddresses h rest) nexts a h.fresh start name) := by
  have news := new_bounds copied below
  obtain ⟨⟨node,here,shown,kept⟩,⟨copy,there,copyShown⟩,⟨next',behind⟩,⟨prev',copies⟩,fresh,others,following⟩ := copied
  obtain ⟨oldDistinct,nextsDistinct,apart⟩ := nodup_append.mp distinct
  have oldBelow : ∀ x ∈ a :: addresses rest, x < h3.fresh := fun x mem => by
    have low := below x (mem_append_left _ mem)
    omega
  have newDistinct : (newAddresses h rest).Nodup := by
    show (addresses (renumber h.fresh ((a,e) :: rest))).Nodup
    rw [addresses_renumber]
    exact nodup_range'
  have firstChain : Chain Subtree.children h3 (some a) (a :: addresses rest) :=
    ⟨rfl,node,here,shown.children ▸ columnAt_chain behind⟩
  have firstHeld : ∀ x ∈ a :: addresses rest, ∃ node, h3.cells x = some node ∧ node.start = start := by
    exact forall_mem_cons.mpr ⟨⟨node,here,shown.start⟩,columnAt_cells behind⟩
  have stepNext : changeNextAll h3 (some a) (some h.fresh) = _ :=
    changeNextAll_set firstChain oldDistinct oldBelow firstHeld fun n same => by
      cases same
      exact ⟨(news h.fresh (.head _)).2.2.1,copy,there⟩
  have secondChain : Chain Subtree.children h3 (some h.fresh) (newAddresses h rest) :=
    ⟨rfl,copy,there,copyShown.children ▸ columnAt_chain copies⟩
  obtain ⟨h4,four⟩ : ∃ h4, h4 = h3.adjust (nextSet (a :: addresses rest) (some h.fresh) start) := ⟨_,rfl⟩
  have secondHeld : ∀ x ∈ newAddresses h rest, ∃ node, h4.cells x = some node := by
    rw [four]
    intro x mem
    rcases mem_cons.mp mem with rfl | later
    · exact ⟨_,by rw [adjust_cells,there]; rfl⟩
    · obtain ⟨node,held,_⟩ := columnAt_cells copies x later
      exact ⟨_,by rw [adjust_cells,held]; rfl⟩
  have firstStart : ∃ other, h4.cells a = some other ∧ other.start = start := by
    refine ⟨_,by rw [four,adjust_cells,here]; rfl,?_⟩
    rw [nextSet_start]
    exact shown.start
  have keeps : keepsLink Subtree.children h3 h4 := four ▸ nextSet_keeps
  have stepPrev : changePrevAll h4 (some h.fresh) ((some (a,start)).map Prod.fst) = _ :=
    changePrevAll_set (chain_kept keeps secondChain) newDistinct (fun x mem => by rw [four]; exact (news x mem).2.1) secondHeld
      fun p same => by
        cases same
        exact ⟨fun mem => (news a mem).2.2.1 (.head _),firstStart⟩
  obtain ⟨h5,five⟩ : ∃ h5, h5 = h4.adjust (prevSet (newAddresses h rest) (some (a,start))) := ⟨_,rfl⟩
  have copyCell : h5.cells h.fresh = some {copy with prev := some a, oidOff := place start copy.start} := by
    have outside := (news h.fresh (.head _)).2.2.1
    simp only [five,four,adjust_cells,there,Option.map_some]
    simp [nextSet,prevSet,outside]
  have sameLinks : ∀ x ∈ nexts, (h3.cells x).map Subtree.children = (h.cells x).map Subtree.children := by
    intro x mem
    have same := congrArg (Option.map Subtree.children) (following x mem none [])
    simpa [Option.map_map,Function.comp_def] using same
  have thirdChain : Chain Subtree.children h5 next nexts :=
    chain_kept (keepsLink_trans keeps (five ▸ prevSet_keeps)) (chain_same sameLinks chain)
  have stepFollowing : changePrevAll h5 next ((some (h.fresh,name)).map Prod.fst) = _ :=
    changePrevAll_set thirdChain nextsDistinct (fun x mem => by
        have low := below x (mem_append_right _ mem)
        simp only [five,four,Heap.adjust_fresh]
        omega) (chain_cells thirdChain) fun p same => by
      cases same
      exact ⟨(news h.fresh (.head _)).2.2.2,_,copyCell,copyShown.start⟩
  rw [retainLinks,stepNext,← four]
  simp only [Option.bind_eq_bind,Option.bind_some]
  rw [show changePrevAll h4 (some h.fresh) (some a) = _ from stepPrev,← five]
  simp only [Option.bind_some,copyCell,copyShown.next]
  rw [show changePrevAll h5 next (some h.fresh) = _ from stepFollowing,five,four]
  rfl

theorem relinked_split (distinct : (a :: addresses rest++nexts).Nodup) :
    SplitOf h (relinked h3 (a :: addresses rest) (newAddresses h rest) nexts a h.fresh start name)
      ((a,e) :: rest) nexts start ending name prev next := by
  have news := new_bounds copied below
  obtain ⟨⟨node,here,shown,kept⟩,⟨copy,there,copyShown⟩,⟨next',behind⟩,⟨prev',copies⟩,fresh,others,following⟩ := copied
  obtain ⟨_,_,apart⟩ := nodup_append.mp distinct
  have oldOut : ∀ x ∈ a :: addresses rest, x ∉ newAddresses h rest ∧ x ∉ nexts := fun x mem =>
    ⟨fun new => (news x new).2.2.1 mem,fun later => apart x mem x later rfl⟩
  have freshOut := (news h.fresh (.head _)).2.2
  have old : ∀ x, x < h.fresh → x ∉ newAddresses h rest := fun x low new => by
    have high := (news x new).1
    omega
  refine ⟨?_,?_,?_,?_,?_,?_,?_⟩
  · have head : ColumnAt h3 start name prev next (headOr none rest) [(a,e)] := ⟨⟨node,here,shown⟩,trivial⟩
    have changed : ColumnAt (h3.adjust (nextSet (a :: addresses rest) (some h.fresh) start)) start name prev (some h.fresh) none
        ([(a,e)]++rest) :=
      columnAt_append.mpr ⟨columnAt_next (fun x mem => by simp [addresses] at mem; simp [mem]) head,
        columnAt_next (fun x mem => .tail _ mem) behind⟩
    exact columnAt_prev_other (fun x mem => (oldOut x mem).2) (columnAt_prev_other (fun x mem => (oldOut x mem).1) changed)
  · have head : ColumnAt h3 name ending prev next (headOr none (renumber (h.fresh+1) rest)) [(h.fresh,e)] :=
      ⟨⟨copy,there,copyShown⟩,trivial⟩
    have single : ∀ x ∈ addresses [(h.fresh,e)], x ∈ newAddresses h rest := fun x mem => by
      simp [addresses] at mem
      simp [mem]
    have later : ∀ x ∈ addresses (renumber (h.fresh+1) rest), x ∈ newAddresses h rest :=
      fun x mem => .tail _ mem
    have changed : ColumnAt ((h3.adjust (nextSet (a :: addresses rest) (some h.fresh) start)).adjust
        (prevSet (newAddresses h rest) (some (a,start)))) name ending
          ((some (a,start)).map Prod.fst) next none ([(h.fresh,e)]++renumber (h.fresh+1) rest) :=
      columnAt_append.mpr ⟨columnAt_prev single (columnAt_next_other (fun x mem => (news x (single x mem)).2.2.1) head),
        columnAt_prev later (columnAt_next_other (fun x mem => (news x (later x mem)).2.2.1) copies)⟩
    exact columnAt_prev_other (fun x mem => (news x mem).2.2.2) changed
  · rw [relinked]
    simp only [Heap.adjust_fresh,length_cons]
    omega
  · intro x out last low
    have unread : x ≠ a ∧ x ∉ addresses rest := by simpa [addresses] using out
    have apartNew := old x low
    have less : x ≠ h.fresh := by omega
    rw [← others x unread.1 unread.2 last low,relinked]
    simp only [adjust_cells]
    cases h3.cells x with
    | none => simp
    | some v => simp [nextSet,prevSet,unread,last,less,not_mem_of_not_mem_cons apartNew]
  · intro x mem
    have low := below x (mem_append_right _ mem)
    have unread : x ≠ a ∧ x ∉ addresses rest := by
      have out : x ∉ a :: addresses rest := fun inside => (oldOut x inside).2 mem
      simpa using out
    have less : x ≠ h.fresh := by omega
    rw [← following x mem,relinked]
    simp only [adjust_cells]
    cases h3.cells x with
    | none => simp
    | some v => simp [nextSet,prevSet,unread,mem,less,not_mem_of_not_mem_cons (old x low)]
  · intro x head
    cases head
    have out := oldOut a (.head _)
    rw [kept,relinked]
    simp only [adjust_cells,here,Option.map_some]
    simp [nextSet,prevSet,out.2,not_mem_of_not_mem_cons out.1,ne_of_not_mem_cons out.1]
  · rw [relinked]
    simp only [adjust_cells,there,Option.map_some]
    have begins := copyShown.start
    simp [nextSet,prevSet,freshOut.2,not_mem_of_not_mem_cons freshOut.1,ne_of_not_mem_cons freshOut.1,begins]

end

def copyNode (h : Heap (Subtree ρ)) (a : Nat) (node : Subtree ρ) (name : Oid) : Heap (Subtree ρ) :=
  (h.alloc {node with start := name, vars := secondVariables node name}).put a
    {node with ending := name, vars := firstVariables node name}

theorem copyNode_cells (low : a < h.fresh) (name : Oid) :
    (copyNode h a node name).cells a = some {node with ending := name, vars := firstVariables node name} ∧
    (copyNode h a node name).cells h.fresh = some {node with start := name, vars := secondVariables node name} ∧
    (∀ x, x ≠ a → x < h.fresh → (copyNode h a node name).cells x = h.cells x) ∧
    (copyNode h a node name).fresh = h.fresh+1 := by
  refine ⟨by simp [copyNode],by simp [copyNode,ne_of_gt low],fun x apart below => ?_,rfl⟩
  simp [copyNode,apart,ne_of_lt below]

theorem copied_single (low : a < h.fresh) (here : h.cells a = some node) (shown : Shows node start ending e prev next none)
    (outside : a ∉ nexts) (below : ∀ x ∈ nexts, x < h.fresh) (name : Oid) :
    Copied h (copyNode h a node name) a e [] nexts start ending name prev next := by
  obtain ⟨old,new,others,fresh⟩ := copyNode_cells low name
  refine ⟨⟨_,old,{shown with ending := rfl},by rw [here]; rfl⟩,⟨_,new,{shown with start := rfl}⟩,⟨next,trivial⟩,⟨prev,trivial⟩,
    fresh,fun x apart _ _ below => others x apart below,fun x mem p first => ?_⟩
  rw [others x (fun same => outside (same ▸ mem)) (below x mem)]

theorem copied_column (low : a < h.fresh) (here : h.cells a = some node)
    (shown : Shows node start ending e prev next (headOr none column)) (outside : a ∉ addresses column++nexts)
    (below : ∀ x ∈ addresses column++nexts, x < h.fresh)
    (split : SplitOf (copyNode h a node name) h' column nexts start ending name prev next) :
    ∃ copy, h'.cells h.fresh = some copy ∧
      Copied h (h'.put h.fresh {copy with children := headOr none (renumber (h.fresh+1) column)}) a e column nexts start ending name prev next := by
  obtain ⟨old,new,others,fresh⟩ := copyNode_cells low name
  obtain ⟨first,second,grown,unchanged,following,_,_⟩ := split
  rw [fresh] at second grown unchanged following
  have outColumn : a ∉ addresses column := fun mem => outside (mem_append_left _ mem)
  have outNexts : a ∉ nexts := fun mem => outside (mem_append_right _ mem)
  have freshOut : h.fresh ∉ addresses column++nexts := fun mem => absurd (below _ mem) (by omega)
  have copyCell := unchanged h.fresh (fun mem => freshOut (mem_append_left _ mem))
    (fun mem => freshOut (mem_append_right _ mem)) (by omega)
  rw [new] at copyCell
  have oldCell := unchanged a outColumn outNexts (by omega)
  rw [old] at oldCell
  have oldStays := fun copy => (put_cells (h := h') (a := h.fresh) (b := a) (v := copy)).trans
    ((if_neg (ne_of_lt low)).trans oldCell)
  refine ⟨_,copyCell,⟨_,oldStays _,{shown with ending := rfl},by rw [here]; rfl⟩,
    ⟨_,put_cells.trans (if_pos rfl),{shown with start := rfl, children := rfl}⟩,⟨_,columnAt_frame (fun x mem => ?_) first⟩,
    ⟨_,columnAt_frame (fun x mem => ?_) second⟩,by simp [grown],fun x apart behind last small => ?_,fun x mem p first => ?_⟩
  · have small := below x (mem_append_left _ mem)
    simp [ne_of_lt small]
  · have large := (mem_renumber.mp mem).1
    have apart : x ≠ h.fresh := by omega
    simp [apart]
  · have less : x ≠ h.fresh := by omega
    rw [← others x apart small,← unchanged x behind last (by omega)]
    simp [less]
  · have small := below x (mem_append_right _ mem)
    have less : x ≠ h.fresh := by omega
    have apart : x ≠ a := fun same => outNexts (same ▸ mem)
    simp only [put_cells,if_neg less,following x mem,others x apart small,Option.map_map]
    rfl

theorem splitLoop_leaf (here : h.cells a = some node) (ordered : ¬snmpOidCompare name node.ending > 0)
    (leaf : node.children = none) : splitLoop (fuel+1) h a name =
      (retainLinks (copyNode h a node name) a h.fresh).map fun h' => (h',some h.fresh) := by
  obtain ⟨_,_,_,_,_,_,_,_,_,_⟩ := node
  cases leaf
  rw [splitLoop,here]
  simp only [Option.bind_eq_bind,Option.bind_some,if_neg ordered]
  rw [Option.map_eq_bind]
  rfl

theorem splitLoop_parent (here : h.cells a = some node) (ordered : ¬snmpOidCompare name node.ending > 0)
    (parent : node.children = some b) (deeper : splitLoop fuel (copyNode h a node name) b name = some (h',children))
    (copied : h'.cells h.fresh = some copy) : splitLoop (fuel+1) h a name =
      (retainLinks (h'.put h.fresh {copy with children := children}) a h.fresh).map fun h' => (h',some h.fresh) := by
  obtain ⟨_,_,_,_,_,_,_,_,_,_⟩ := node
  cases parent
  rw [copyNode] at deeper
  rw [splitLoop,here]
  simp only [Option.bind_eq_bind,Option.bind_some,if_neg ordered,deeper,copied]
  rw [Option.map_eq_bind]
  rfl

theorem splitLoop_outcome (low : name ≤ ending) : ∀ {column : List (Nat × Entry ρ)} {h : Heap (Subtree ρ)} {fuel a : Nat},
    headOr none column = some a → ColumnAt h start ending prev next none column → (addresses column++nexts).Nodup →
    (∀ x ∈ addresses column++nexts, x < h.fresh) → Chain Subtree.children h next nexts → column.length ≤ fuel →
    ∃ h', splitLoop fuel h a name = some (h',some h.fresh) ∧ SplitOf h h' column nexts start ending name prev next
  | [],_,_,_,head,_,_,_,_,_ => by cases head
  | (a,e) :: rest,h,fuel,_,head,held,distinct,below,chain,enough => by
    cases head
    obtain ⟨⟨node,here,shown⟩,behind⟩ := held
    obtain ⟨outside,others⟩ := nodup_cons.mp distinct
    have small : a < h.fresh := below a (.head _)
    have restBelow : ∀ x ∈ addresses rest++nexts, x < h.fresh := (forall_mem_cons.mp below).2
    obtain ⟨_,_,kept,fresh⟩ := copyNode_cells small name
    have ordered : ¬snmpOidCompare name node.ending > 0 := by
      rw [compare_more,shown.ending]
      exact not_lt.mpr low
    cases fuel with
    | zero => simp at enough
    | succ fuel =>
      cases rest with
      | nil =>
        have copied := copied_single small here shown (fun mem => outside (mem_append_right _ mem))
          (forall_mem_append.mp restBelow).2 name
        refine ⟨_,?_,relinked_split copied below distinct⟩
        rw [splitLoop_leaf here ordered shown.children,retainLinks_run copied below distinct chain]
        rfl
      | cons second rest =>
        obtain ⟨b,f⟩ := second
        have same : ∀ x ∈ addresses ((b,f) :: rest)++nexts, (copyNode h a node name).cells x = h.cells x := fun x mem =>
          kept x (fun equal => outside (equal ▸ mem)) (restBelow x mem)
        have deeper : ∃ h', splitLoop fuel (copyNode h a node name) b name = some (h',some (copyNode h a node name).fresh) ∧
            SplitOf (copyNode h a node name) h' ((b,f) :: rest) nexts start ending name prev next :=
          splitLoop_outcome low rfl (columnAt_frame (forall_mem_append.mp same).1 behind) others
            (fun x mem => (restBelow x mem).trans (by omega))
            (chain_same (fun x mem => by rw [same x (mem_append_right _ mem)]) chain) (Nat.le_of_succ_le_succ enough)
        obtain ⟨h2,run,split⟩ := deeper
        obtain ⟨copy,copyCell,copied⟩ := copied_column small here shown outside restBelow split
        refine ⟨_,?_,relinked_split copied below distinct⟩
        rw [splitLoop_parent here ordered shown.children run copyCell,fresh]
        have links := retainLinks_run copied below distinct chain
        exact congrArg (Option.map _) links

end

section
variable {ρ : Type} {h h' : Heap (Subtree ρ)} {before : Option (Nat × Oid)} {after : Option Nat}
variable {left right : List (Slice ρ)} {s : Slice ρ}

theorem allAddresses_append (left right : List (Slice ρ)) : allAddresses (left++right) = allAddresses left++allAddresses right :=
  flatMap_append

theorem allAddresses_cons (s : Slice ρ) (right : List (Slice ρ)) :
    allAddresses (s :: right) = addresses s.column++allAddresses right := rfl

theorem beside_listed (s : Slice ρ) : ∀ a ∈ allAddresses left++allAddresses right, a ∈ allAddresses (left++s :: right) := by
  intro a mem
  rw [allAddresses_append,allAddresses_cons]
  exact mem_append.mpr ((mem_append.mp mem).imp_right (mem_append_right _))

theorem column_listed (left right : List (Slice ρ)) (s : Slice ρ) : ∀ a ∈ addresses s.column, a ∈ allAddresses (left++s :: right) := by
  intro a mem
  rw [allAddresses_append,allAddresses_cons]
  exact mem_append_right _ (mem_append_left _ mem)

structure Apart (left : List (Slice ρ)) (s : Slice ρ) (right : List (Slice ρ)) : Prop where
  before : (allAddresses left).Nodup
  inside : (addresses s.column).Nodup
  behind : (allAddresses right).Nodup
  beside : ∀ a ∈ addresses s.column, a ∉ allAddresses left++allAddresses right
  across : ∀ a ∈ allAddresses left, a ∉ allAddresses right

theorem slices_apart (distinct : (allAddresses (left++s :: right)).Nodup) : Apart left s right := by
  rw [allAddresses_append,allAddresses_cons] at distinct
  obtain ⟨before,inner,early⟩ := nodup_append.mp distinct
  obtain ⟨inside,behind,late⟩ := nodup_append.mp inner
  refine ⟨before,inside,behind,fun a mem other => ?_,fun a mem later => early a mem a (mem_append_right _ later) rfl⟩
  rcases mem_append.mp other with first | last
  · exact early a first a (mem_append_left _ mem) rfl
  · exact late a mem a last rfl

theorem nodup_middle {front : List Nat} (distinct : (front++back).Nodup) (inner : middle.Nodup)
    (apart : ∀ n ∈ middle, n ∉ front++back) : (front++(middle++back)).Nodup := by
  refine (perm_append_comm_assoc front middle back).nodup_iff.mpr (nodup_append.mpr ⟨inner,distinct,?_⟩)
  rintro n mem _ outside rfl
  exact apart n mem outside

def nextAddresses : List (Slice ρ) → List Nat
  | [] => []
  | t :: _ => addresses t.column

theorem nextAddresses_all (right : List (Slice ρ)) : ∀ a ∈ nextAddresses right, a ∈ allAddresses right := by
  intro a mem
  cases right with
  | nil => cases mem
  | cons t right => exact mem_append_left _ mem

theorem nextAddresses_nodup (distinct : (allAddresses right).Nodup) : (nextAddresses right).Nodup := by
  cases right with
  | nil => exact nodup_nil
  | cons t right => exact (nodup_append.mp distinct).1

theorem next_chain (linked : Linked h none before right) :
    Chain Subtree.children h (headAfter none right) (nextAddresses right) := by
  cases right with
  | nil => rfl
  | cons t right => exact columnAt_chain linked.1.column

theorem mark_head (s : Slice ρ) : s.mark.map Prod.fst = headOr none s.column := by
  rw [Slice.mark,Option.map_map]
  exact Option.map_id'

theorem linked_following (linked : Linked h none before right)
    (first : ∀ a ∈ nextAddresses right, h'.cells a = (h.cells a).map fun v => {v with prev := some p, oidOff := place start v.start})
    (others : ∀ a ∈ allAddresses right, a ∉ nextAddresses right → h'.cells a = h.cells a) (distinct : (allAddresses right).Nodup) :
    Linked h' none (some (p,start)) right := by
  cases right with
  | nil => trivial
  | cons t right =>
    obtain ⟨held,rest⟩ := linked
    obtain ⟨_,_,apart⟩ := nodup_append.mp distinct
    refine ⟨⟨held.filled,columnAt_map (fun a e mem node children here shown => ?_) held.column,?_⟩,
      linked_frame (fun a mem => others a (mem_append_right _ mem) fun inside => apart a inside a mem rfl) rest⟩
    · have cell := first a (mem_map_of_mem mem)
      rw [here] at cell
      exact ⟨_,cell,{shown with prev := rfl}⟩
    intro b inside a head node here
    cases inside
    obtain ⟨_,e,_,other,column,there,shown,_⟩ := held_head held
    rw [column] at head
    cases head
    have mem : a ∈ nextAddresses (t :: right) := by simp [nextAddresses,addresses,column]
    rw [first a mem,there] at here
    cases here
    show place start other.start = place start t.start
    rw [shown.start]

theorem split_slices {name : Oid} (rep : Represents r (left++s :: right)) (low : name ≤ s.ending)
    (head : headOr none s.column = some a) :
    ∃ h', netsnmpSubtreeSplit r.heap a name = some (h',some r.heap.fresh) ∧
      Represents ⟨h',r.first⟩ (left++⟨s.start,name,s.column⟩ :: ⟨name,s.ending,renumber r.heap.fresh s.column⟩ :: right) ∧
      r.heap.fresh ≤ h'.fresh ∧ ∀ x < r.heap.fresh, x ∉ allAddresses (left++s :: right) → h'.cells x = r.heap.cells x := by
  obtain ⟨leftLinked,held,rightLinked⟩ := linked_append.mp rep.linked
  have distinct := rep.distinct
  have apart := slices_apart distinct
  have nextIn := nextAddresses_all right
  have besideBelow : ∀ x ∈ allAddresses left++allAddresses right, x < r.heap.fresh := fun x mem =>
    rep.below x (beside_listed s x mem)
  have columnBelow : ∀ x ∈ addresses s.column, x < r.heap.fresh := fun x mem => rep.below x (column_listed left right s x mem)
  have partDistinct : (addresses s.column++nextAddresses right).Nodup := by
    refine nodup_append.mpr ⟨apart.inside,nextAddresses_nodup apart.behind,?_⟩
    rintro x mem _ later rfl
    exact apart.beside x mem (mem_append_right _ (nextIn x later))
  have partBelow : ∀ x ∈ addresses s.column++nextAddresses right, x < r.heap.fresh := by
    exact forall_mem_append.mpr ⟨columnBelow,fun x later => besideBelow x (mem_append_right _ (nextIn x later))⟩
  have enough : s.column.length ≤ r.heap.fresh := by
    have bound := addresses_bound apart.inside columnBelow
    simpa [addresses] using bound
  obtain ⟨h',run,split⟩ := splitLoop_outcome low head held.column partDistinct partBelow (next_chain rightLinked) enough
  have newHead : headOr none (renumber r.heap.fresh s.column) = some r.heap.fresh := by
    cases hcase : s.column with
    | nil => exact absurd hcase held.filled
    | cons first rest => rfl
  have grown : r.heap.fresh ≤ h'.fresh := by
    rw [split.fresh]
    exact Nat.le_add_right _ _
  refine ⟨h',run,⟨?_,?_,?_,?_⟩,grown,fun x small outside => ?_⟩
  · have first := rep.first
    rw [headAfter_append] at first ⊢
    exact first
  · have firstHeld : Held h' (lastMark none left) (headAfter none (⟨name,s.ending,renumber r.heap.fresh s.column⟩ :: right))
        ⟨s.start,name,s.column⟩ := by
      refine held_kept held rfl rfl ?_ split.offset
      rw [headAfter,newHead]
      exact split.first
    have secondHeld : Held h' (Slice.mark ⟨s.start,name,s.column⟩) (headAfter none right)
        ⟨name,s.ending,renumber r.heap.fresh s.column⟩ := by
      refine ⟨fun empty => ?_,?_,fun b inside x first node here => ?_⟩
      · rw [show renumber r.heap.fresh s.column = [] from empty] at newHead
        cases newHead
      · rw [mark_head]
        exact split.second
      have mark : Slice.mark ⟨s.start,name,s.column⟩ = some (a,s.start) := by rw [Slice.mark,head]; rfl
      rw [mark] at inside
      cases inside
      have fresh : x = r.heap.fresh := by
        rw [newHead] at first
        exact (Option.some.inj first).symm
      have offset := split.newOffset
      rw [← fresh,here] at offset
      exact Option.some.inj offset
    have secondMark : Slice.mark ⟨name,s.ending,renumber r.heap.fresh s.column⟩ = some (r.heap.fresh,name) := by
      rw [Slice.mark,newHead]
      rfl
    have following : Linked h' none (some (r.heap.fresh,name)) right := by
      refine linked_following rightLinked split.following (fun x mem outside => ?_) apart.behind
      exact split.others x (fun inside => apart.beside x inside (mem_append_right _ mem)) outside
        (besideBelow x (mem_append_right _ mem))
    refine linked_append.mpr ⟨linked_frame (fun x mem => ?_) leftLinked,firstHeld,secondHeld,secondMark ▸ following⟩
    exact split.others x (fun inside => apart.beside x inside (mem_append_left _ mem))
      (fun later => apart.across x mem (nextIn x later)) (besideBelow x (mem_append_left _ mem))
  · rw [allAddresses_append,allAddresses_cons] at distinct
    rw [allAddresses_append,allAddresses_cons,allAddresses_cons,← append_assoc]
    refine nodup_middle (by rw [append_assoc]; exact distinct) ?_ fun n mem old => ?_
    · rw [addresses_renumber]
      exact nodup_range'
    have large := (mem_renumber.mp mem).1
    have small := rep.below n (by rw [allAddresses_append,allAddresses_cons,← append_assoc]; exact old)
    omega
  · intro x mem
    rw [allAddresses_append,allAddresses_cons,allAddresses_cons,mem_append,mem_append,mem_append] at mem
    rcases mem with inside | inside | inside | inside
    · exact (besideBelow x (mem_append_left _ inside)).trans_le grown
    · exact (columnBelow x inside).trans_le grown
    · exact (mem_renumber.mp inside).2.trans_eq split.fresh.symm
    · exact (besideBelow x (mem_append_right _ inside)).trans_le grown
  · exact split.others x (fun inside => outside (column_listed left right s x inside))
      (fun later => outside (beside_listed s x (mem_append_right _ (nextIn x later)))) small

def lastAddresses : List (Slice ρ) → List Nat
  | [] => []
  | [t] => addresses t.column
  | _ :: t :: left => lastAddresses (t :: left)

theorem lastAddresses_all : ∀ left : List (Slice ρ), ∀ a ∈ lastAddresses left, a ∈ allAddresses left
  | [],_,wrong => by cases wrong
  | [_],_,mem => mem_append_left _ mem
  | _ :: t :: left,a,mem => mem_append_right _ (lastAddresses_all (t :: left) a mem)

theorem lastAddresses_nodup : ∀ {left : List (Slice ρ)}, (allAddresses left).Nodup → (lastAddresses left).Nodup
  | [],_ => nodup_nil
  | [_],distinct => (nodup_append.mp distinct).1
  | _ :: t :: left,distinct =>
    @lastAddresses_nodup (t :: left) (nodup_append.mp distinct).2.1

theorem linked_preceding : ∀ {left : List (Slice ρ)} {before : Option (Nat × Oid)}, Linked h after before left →
    (∀ a ∈ lastAddresses left, h'.cells a = (h.cells a).map fun v => {v with next := after'}) →
    (∀ a ∈ allAddresses left, a ∉ lastAddresses left → h'.cells a = h.cells a) → (allAddresses left).Nodup →
    Linked h' after' before left
  | [],_,_,_,_,_ => trivial
  | [t],_,linked,last,_,_ => by
    obtain ⟨held,_⟩ := linked
    refine ⟨held_kept held rfl rfl (columnAt_map (fun a e mem node children here shown => ?_) held.column) fun a head => ?_,trivial⟩
    · have cell := last a (mem_map_of_mem mem)
      rw [here] at cell
      exact ⟨_,cell,{shown with next := rfl}⟩
    · rw [last a (headOr_member head),Option.map_map]
      rfl
  | t :: u :: left,_,linked,last,others,distinct => by
    obtain ⟨held,rest⟩ := linked
    obtain ⟨_,inner,apart⟩ := nodup_append.mp distinct
    refine ⟨held_frame (fun a mem => ?_) held,linked_preceding rest last
      (forall_mem_append.mp others).2 inner⟩
    exact others a (mem_append_left _ mem) fun later =>
      apart a mem a (lastAddresses_all (u :: left) a later) rfl

theorem linked_head (rep : Represents r (left++s :: right)) (begins : s'.start = s.start)
    (head : headOr none s'.column = some n)
    (lasts : ∀ a ∈ lastAddresses left, h'.cells a = (r.heap.cells a).map fun v => {v with next := some n})
    (firsts : ∀ a ∈ nextAddresses right,
      h'.cells a = (r.heap.cells a).map fun v => {v with prev := some n, oidOff := place s.start v.start})
    (others : ∀ a ∈ allAddresses left++allAddresses right, a ∉ lastAddresses left → a ∉ nextAddresses right →
      h'.cells a = r.heap.cells a)
    (held : Held h' (lastMark none left) (headAfter none right) s') : Linked h' none none (left++s' :: right) := by
  obtain ⟨leftLinked,_,rightLinked⟩ := linked_append.mp rep.linked
  have apart := slices_apart rep.distinct
  have mark : s'.mark = some (n,s.start) := by
    rw [Slice.mark,head,begins]
    rfl
  have preceding : Linked h' (headOr none s'.column) none left := by
    rw [head]
    refine linked_preceding leftLinked lasts (fun a mem out => others a (mem_append_left _ mem) out fun later => ?_) apart.before
    exact apart.across a mem (nextAddresses_all _ a later)
  have following : Linked h' none s'.mark right := by
    rw [mark]
    refine linked_following rightLinked firsts (fun a mem out => others a (mem_append_right _ mem) (fun early => ?_) out)
      apart.behind
    exact apart.across a (lastAddresses_all _ a early) mem
  exact linked_append.mpr ⟨preceding,held,following⟩

theorem linked_column (rep : Represents r (left++s :: right)) (begins : s'.start = s.start)
    (head : headOr none s'.column = headOr none s.column)
    (others : ∀ a ∈ allAddresses left++allAddresses right, h'.cells a = r.heap.cells a)
    (held : Held h' (lastMark none left) (headAfter none right) s') : Linked h' none none (left++s' :: right) := by
  obtain ⟨leftLinked,_,rightLinked⟩ := linked_append.mp rep.linked
  have mark : s'.mark = s.mark := by rw [Slice.mark,Slice.mark,head,begins]
  refine linked_append.mpr ⟨?_,held,?_⟩
  · rw [headAfter,head]
    exact linked_frame (forall_mem_append.mp others).1 leftLinked
  · rw [mark]
    exact linked_frame (forall_mem_append.mp others).2 rightLinked

theorem last_chain : ∀ {left : List (Slice ρ)} {before : Option (Nat × Oid)}, Linked h after before left → left ≠ [] →
    ∃ m, lastMark before left = some m ∧ m.1 ∈ lastAddresses left ∧ Chain Subtree.children h (some m.1) (lastAddresses left) ∧
      ∀ a ∈ lastAddresses left, ∃ node, h.cells a = some node ∧ node.start = m.2
  | [],_,_,filled => absurd rfl filled
  | [t],_,linked,_ => by
    obtain ⟨a,e,rest,node,column,_,_,_⟩ := held_head linked.1
    have chain := columnAt_chain linked.1.column
    rw [show headOr none t.column = some a by rw [column]; rfl] at chain
    exact ⟨(a,t.start),by rw [lastMark,lastMark,Slice.mark,column]; rfl,by simp [lastAddresses,addresses,column],chain,
      columnAt_cells linked.1.column⟩
  | first :: t :: left,_,linked,_ => by
    obtain ⟨_,rest⟩ := linked
    have deeper := last_chain rest (cons_ne_nil t left)
    exact deeper

end

end NetSnmp.AgentRegistry
