import SipxExternals.NetSnmpSubtreeRemovals

namespace NetSnmp.AgentRegistry
open Foundations.Heaps Foundations.Lex NetSnmp.AsnTypes List
open Option (bind_eq_bind bind_some)

variable {ρ : Type} {null : ρ} {r : Registry ρ} {live : List (Entry ρ)} {slices : List (Slice ρ)}

-- The calls of the agent. A range is possible only when a registration is taken back.
inductive Call (ρ : Type) where
  | register (var : List Variable) (mibloc : Oid) (priority : Int) (rangeUbound : Nat) (info : ρ)
  | unregister (name : Oid) (priority rangeSubid : Int) (rangeUbound : Nat)

def perform (null : ρ) (r : Registry ρ) : Call ρ → Option (Registry ρ × Code)
  | .register var mibloc priority rangeUbound info => netsnmpRegisterMib null r var mibloc priority 0 rangeUbound info
  | .unregister name priority rangeSubid rangeUbound => do
    let (r,_,code) ← unregisterMibContext r name priority rangeSubid rangeUbound
    some (r,code)

def performAll (null : ρ) : Registry ρ → List (Call ρ) → Option (Registry ρ × List Code)
  | r,[] => some (r,[])
  | r,call :: calls => do
    let (r,code) ← perform null r call
    let (r,codes) ← performAll null r calls
    some (r,code :: codes)

def entryOf (node : Subtree ρ) : Entry ρ := ⟨node.name,node.priority,node.info⟩

def answer (r : Registry ρ) (oid : Oid) : Option (Option (Entry ρ)) := do
  match ← netsnmpSubtreeFind r oid none with
  | none => some none
  | some p =>
    let node ← r.heap.cells p
    some (some (entryOf node))

def childrenOf (h : Heap (Subtree ρ)) : Nat → Option Nat → Option (List (Subtree ρ))
  | _,none => some []
  | 0,some _ => none
  | fuel+1,some p => do
    let node ← h.cells p
    let rest ← childrenOf h fuel node.children
    some (node :: rest)

def slicesOf (h : Heap (Subtree ρ)) : Nat → Option Nat → Option (List (List (Subtree ρ)))
  | _,none => some []
  | 0,some _ => none
  | fuel+1,some p => do
    let node ← h.cells p
    let column ← childrenOf h h.fresh (some p)
    let rest ← slicesOf h fuel node.next
    some (column :: rest)

def sliceList (r : Registry ρ) : Option (List (List (Subtree ρ))) := slicesOf r.heap r.heap.fresh r.first

-- Each slice begins where the one before it ends, and its children are about the same OIDs.
def Contiguous : Oid → Oid → List (List (Subtree ρ)) → Prop
  | first,last,[] => first = last
  | first,last,column :: rest => ∃ ending, column ≠ [] ∧ (∀ node ∈ column, node.start = first ∧ node.ending = ending) ∧
    first < ending ∧ Contiguous ending last rest

def named (name : Oid) (priority : Int) (e : Entry ρ) : Bool := e.name = name ∧ (e.priority : Int) = priority

-- What is registered, as a list: the loop over a range takes one name after the other.
def dropNames (priority : Int) (position rangeUbound : Nat) (origSubidVal : Int) : Nat → List (Entry ρ) → Oid → List (Entry ρ) × Code
  | 0,live,_ => (live,.noSuchRegistration)
  | fuel+1,live,name =>
    if live.any (named name priority) then
      let rest := live.filter fun e => !named name priority e
      let value := raised (name.getD position 0)
      if origSubidVal = -1 ∨ value ≥ toOid (origSubidVal+rangeUbound) then (rest,.unregisteredOk)
      else dropNames priority position rangeUbound origSubidVal fuel rest (name.set position value)
    else (live,.noSuchRegistration)

def liveAfter (live : List (Entry ρ)) : Call ρ → List (Entry ρ) × Code
  | .register _ mibloc priority _ info =>
    if live.any (named mibloc (priority%256)) then (live,.duplicateRegistration)
    else (⟨mibloc,(priority%256).toNat,info⟩ :: live,.registeredOk)
  | .unregister name priority rangeSubid rangeUbound =>
    dropNames priority (rangeSubid.toNat-1) rangeUbound
      (if rangeSubid > 0 ∧ rangeSubid.toNat ≤ name.length then toInt (name.getD (rangeSubid.toNat-1) 0) else -1)
      (live.length+1) live name

def liveAll : List (Entry ρ) → List (Call ρ) → List (Entry ρ) × List Code
  | live,[] => (live,[])
  | live,call :: calls =>
    let (live,code) := liveAfter live call
    let (live,codes) := liveAll live calls
    (live,code :: codes)

def roots (null : ρ) : List (Entry ρ) := [⟨[0],0,null⟩,⟨[1],0,null⟩,⟨[2],0,null⟩]

-- The registration for an OID: the longest name, and the lowest priority among equal ones.
def Dispatched (live : List (Entry ρ)) (oid : Oid) : Option (Entry ρ) → Prop
  | none => ∀ e ∈ live, ¬e.name <+: oid
  | some e => e ∈ live ∧ e.name <+: oid ∧ ∀ f ∈ live, f.name <+: oid → f = e ∨ Before e f

def ProperName (name : Oid) : Prop := 2 ≤ name.length ∧ name.length ≤ 128 ∧ name.headD 0 ≤ 2 ∧ ∀ x ∈ name, x < 4294967296

def ProperCall : Call ρ → Prop
  | .register _ mibloc _ _ _ => ProperName mibloc
  | .unregister name _ _ _ => 2 ≤ name.length

section
variable {h : Heap (Subtree ρ)} {start ending first last : Oid} {prev next : Option Nat}

theorem childrenOf_column : ∀ {column : List (Nat × Entry ρ)} {fuel : Nat}, ColumnAt h start ending prev next none column →
    column.length ≤ fuel → ∃ nodes, childrenOf h fuel (headOr none column) = some nodes ∧
      nodes.map entryOf = column.map Prod.snd ∧
      ∀ node ∈ nodes, node.start = start ∧ node.ending = ending
  | [],_,_,_ => ⟨[],by rw [headOr,childrenOf],rfl,by simp⟩
  | (a,e) :: rest,fuel,⟨⟨node,here,shown⟩,behind⟩,enough => by
    cases fuel with
    | zero => simp at enough
    | succ fuel =>
      obtain ⟨nodes,run,same,inside⟩ := childrenOf_column behind (Nat.le_of_succ_le_succ enough)
      refine ⟨node :: nodes,?_,?_,fun other mem => ?_⟩
      · rw [headOr,childrenOf,here]
        simp [shown.children,run]
      · rw [map_cons,map_cons,same,entryOf,shown.name,shown.priority,shown.info]
      · rcases mem_cons.mp mem with rfl | later
        · exact ⟨shown.start,shown.ending⟩
        · exact inside other later

theorem slicesOf_linked (enough : ∀ s ∈ slices, s.column.length ≤ h.fresh) :
    ∀ {rest : List (Slice ρ)} {first : Oid} {before : Option (Nat × Oid)} {fuel : Nat}, (∀ s ∈ rest, s ∈ slices) →
    Linked h none before rest → Good has first last rest → rest.length ≤ fuel →
    ∃ columns, slicesOf h fuel (headAfter none rest) = some columns ∧ Contiguous first last columns ∧
      (∀ column ∈ columns, (column.map entryOf).Pairwise Before) ∧ ∀ s ∈ rest, ∃ column ∈ columns, ∃ node ∈ column, node.start = s.start
  | [],_,_,_,_,_,good,_ => ⟨[],by rw [headAfter,slicesOf],good.tiled,by simp,by simp⟩
  | s :: rest,first,before,fuel,inside,linked,good,bound => by
    obtain ⟨held,others⟩ := linked
    obtain ⟨begins,order,sorted,_,behind⟩ := good_cons.mp good
    obtain ⟨a,e,below,node,column,here,shown,_⟩ := held_head held
    cases fuel with
    | zero => simp at bound
    | succ fuel =>
      obtain ⟨nodes,run,same,about⟩ := childrenOf_column held.column (enough s (inside s (.head _)))
      obtain ⟨columns,deeper,contiguous,ordered,starts⟩ := slicesOf_linked enough (forall_mem_cons.mp inside).2 others behind
        (Nat.le_of_succ_le_succ bound)
      have head : headOr none s.column = some a := by rw [column]; rfl
      have filled : nodes ≠ [] := by
        intro empty
        rw [empty,column] at same
        cases same
      refine ⟨nodes :: columns,?_,⟨s.ending,filled,begins ▸ about,begins ▸ order,contiguous⟩,fun other mem => ?_,fun t mem => ?_⟩
      · rw [head] at run
        rw [headAfter,head,slicesOf,here]
        simp [run,shown.next,deeper]
      · rcases mem_cons.mp mem with rfl | later
        · rw [same]
          exact sorted
        · exact ordered other later
      · rcases mem_cons.mp mem with rfl | later
        · obtain ⟨node,listed⟩ := exists_mem_of_ne_nil nodes filled
          exact ⟨nodes,.head _,node,listed,(about node listed).1⟩
        · obtain ⟨column,listed,found⟩ := starts t later
          exact ⟨column,.tail _ listed,found⟩

theorem sliceList_good (rep : Represents r slices) (good : Good has first last slices) :
    ∃ columns, sliceList r = some columns ∧ Contiguous first last columns ∧ (∀ column ∈ columns, (column.map entryOf).Pairwise Before) ∧
      ∀ s ∈ slices, ∃ column ∈ columns, ∃ node ∈ column, node.start = s.start := by
  have enough : ∀ s ∈ slices, s.column.length ≤ r.heap.fresh := by
    intro s mem
    obtain ⟨left,right,rfl⟩ := append_of_mem mem
    exact column_enough rep
  rw [sliceList,rep.first]
  exact slicesOf_linked enough (fun _ mem => mem) rep.linked good (slices_bound rep)

end

theorem raised_small (small : x < 4294967296) : raised x = x+1 := Nat.mod_eq_of_lt (by omega)

theorem name_between : ∀ {name : Oid}, name ≠ [] → name.headD 0 ≤ 2 → [0] ≤ name ∧ name < [3] ∧ raiseLast name ≤ [3]
  | [],filled,_ => absurd rfl filled
  | a :: rest,_,small => by
    simp only [headD_cons] at small
    refine ⟨cons_le.mpr ?_,cons_lt_cons_iff.mpr (.inl (by omega)),?_⟩
    · rcases Nat.eq_zero_or_pos a with rfl | positive
      · exact .inr ⟨rfl,not_lt.mp (not_lt_nil rest)⟩
      · exact .inl positive
    cases rest with
    | nil =>
      rw [raiseLast_single]
      exact cons_le.mpr ((show a+1 < 3 ∨ a+1 = 3 by omega).imp_right (⟨·,le_rfl⟩))
    | cons b rest =>
      rw [raiseLast_cons]
      exact cons_le.mpr (.inl (by omega))

theorem root_first (long : 2 ≤ name.length) (small : [0] ≤ name) : [0] < name :=
  lt_of_le_of_ne small fun equal => by
    rw [← equal] at long
    simp at long

theorem proper_filled (proper : ProperName mibloc) : mibloc ≠ [] := fun empty => by
  have long := proper.1
  rw [empty] at long
  simp at long

theorem newSubtree_proper (proper : ProperName mibloc) (var : List Variable) (priority : Int) (info : ρ) :
    ∃ node, newSubtree var mibloc priority info = node ∧ node.start = mibloc ∧ node.ending = raiseLast mibloc ∧
      (node.children = none ∧ node.next = none) ∧
      (⟨mibloc,(priority%256).toNat,info⟩ : Entry ρ) = ⟨node.name,node.priority,node.info⟩ := by
  have filled := proper_filled proper
  obtain ⟨long,short,_,small⟩ := proper
  have whole : mibloc.length%256 = mibloc.length := Nat.mod_eq_of_lt (by omega)
  obtain ⟨front,x,rfl⟩ := (eq_nil_or_concat mibloc).resolve_left filled
  rw [concat_eq_append] at *
  have last : raised x = x+1 := raised_small (small x (by simp))
  refine ⟨_,rfl,?_,?_,⟨rfl,rfl⟩,?_⟩
  · simp only [newSubtree,whole,take_length]
  rotate_left
  · simp only [newSubtree,whole,take_length]
  · simp only [newSubtree,whole,raiseLast,getLast?_append,getLast?_singleton,Option.some_or,Option.map_some,last,
      dropLast_concat,Option.toList_some]
    exact take_of_length_le (by simp)

def belongs (live : List (Entry ρ)) : Oid → Entry ρ → Prop := fun o e => e ∈ live ∧ e.name <+: o

structure LiveOk (null : ρ) (live : List (Entry ρ)) : Prop where
  bounds : ∀ e ∈ live, e.name ≠ [] ∧ e.name.headD 0 ≤ 2 ∧ e.priority < 256
  keys : ∀ e ∈ live, ∀ f ∈ live, f.name = e.name → f.priority = e.priority → f = e
  roots : ∀ e ∈ roots null, e ∈ live

def Holds (null : ρ) (r : Registry ρ) (live : List (Entry ρ)) : Prop :=
  LiveOk null live ∧ ∃ slices, Represents r slices ∧ Good (belongs live) [0] [3] slices

theorem belongs_interval (filled : e.name ≠ []) (mem : e ∈ live) (o : Oid) :
    belongs live o e ↔ e.name ≤ o ∧ o < raiseLast e.name := by
  rw [begins_between filled o]
  exact and_iff_right mem

theorem root_belongs (ok : LiveOk null live) (low : [0] ≤ o) (high : o < [3]) :
    ∃ f, belongs live o f ∧ f.name.length = 1 := by
  cases o with
  | nil => exact absurd low (not_le.mpr (nil_lt_cons 0 []))
  | cons a o =>
    have small : a < 3 := by
      rcases cons_lt_cons_iff.mp high with less | ⟨_,wrong⟩
      · exact less
      · cases wrong
    have listed : (⟨[a],0,null⟩ : Entry ρ) ∈ roots null := by
      rcases (by omega : a = 0 ∨ a = 1 ∨ a = 2) with rfl | rfl | rfl <;>
        simp [roots]
    exact ⟨_,⟨ok.roots _ listed,⟨o,rfl⟩⟩,rfl⟩

theorem slice_found (holds : Holds null r live) (oid : Oid) :
    (∃ left s right, Represents r (left++s :: right) ∧ netsnmpSubtreeFind r oid none = some (headOr none s.column) ∧
      (entries s).Pairwise Before ∧ ∀ e, belongs live oid e ↔ e ∈ entries s) ∨
    netsnmpSubtreeFind r oid none = some none ∧ ∀ e, ¬belongs live oid e := by
  obtain ⟨ok,slices,rep,good⟩ := holds
  by_cases inside : [0] ≤ oid ∧ oid < [3]
  · obtain ⟨left,s,right,rfl,low,high⟩ := tiled_found good.tiled inside.1 inside.2
    obtain ⟨_,_,sorted,serves,_⟩ := good_cons.mp (good_append.mp good).choose_spec.2
    exact .inl ⟨left,s,right,rep,find_good rep good (.inl rfl) low high,sorted,serves oid low high⟩
  · refine .inr ⟨find_outside rep good (.inl rfl) inside,fun e ⟨mem,begins⟩ => inside ?_⟩
    obtain ⟨filled,small,_⟩ := ok.bounds e mem
    obtain ⟨low,_,high⟩ := name_between filled small
    obtain ⟨above,below⟩ := (begins_between filled oid).mpr begins
    exact ⟨low.trans above,below.trans_le high⟩

theorem answer_dispatched (holds : Holds null r live) (oid : Oid) : ∃ found, answer r oid = some found ∧ Dispatched live oid found := by
  rcases slice_found holds oid with ⟨left,s,right,rep,found,sorted,serves⟩ | ⟨outside,unserved⟩
  · obtain ⟨_,held,_⟩ := linked_append.mp rep.linked
    obtain ⟨a,e,rest,node,column,here,shown,_⟩ := held_head held
    rw [entries,column,map_cons] at sorted serves
    refine ⟨some e,?_,?_⟩
    · rw [answer,found,column]
      simp [headOr,here,entryOf,shown.name,shown.priority,shown.info]
    obtain ⟨mem,begins⟩ := (serves e).mpr (.head _)
    refine ⟨mem,begins,fun f other covers => ?_⟩
    exact (mem_cons.mp ((serves f).mp ⟨other,covers⟩)).imp_right ((pairwise_cons.mp sorted).1 f)
  · exact ⟨none,by rw [answer,outside]; rfl,fun e mem begins => unserved e ⟨mem,begins⟩⟩

theorem dispatched_unique : ∀ {found other : Option (Entry ρ)}, Dispatched live oid found → Dispatched live oid other → found = other
  | none,none,_,_ => rfl
  | none,some e,missing,⟨mem,begins,_⟩ => absurd begins (missing e mem)
  | some e,none,⟨mem,begins,_⟩,missing => absurd begins (missing e mem)
  | some e,some f,⟨mem,begins,first⟩,⟨mem',begins',first'⟩ => by
    rcases first f mem' begins' with same | before
    · rw [same]
    · rcases first' e mem begins with same | after
      · rw [same]
      · exact absurd after (before_asymm before)

section
variable {var : List Variable} {mibloc : Oid} {priority : Int} {info : ρ}

theorem named_iff : named name priority e = true ↔ e.name = name ∧ (e.priority : Int) = priority := decide_eq_true_iff

theorem priority_stored (priority : Int) : (((priority%256).toNat : Nat) : Int) = priority%256 := Int.toNat_of_nonneg (by omega)

theorem first_known (holds : Holds null r live) : r.first.isNone = false := by
  obtain ⟨_,slices,rep,good⟩ := holds
  cases slices with
  | nil =>
    have wrong : ([0] : Oid) = [3] := good.tiled
    cases wrong
  | cons s right =>
    have whole : Represents r ([]++s :: right) := rep
    obtain ⟨a,head⟩ := head_filled whole
    rw [rep.first,headAfter,head]
    rfl

theorem alloc_placed (rep : Represents r slices) (good : Good (belongs live) [0] [3] slices) (proper : ProperName mibloc) (node : Subtree ρ) :
    ∃ left s right, slices = left++s :: right ∧ Represents ⟨r.heap.alloc node,r.first⟩ (left++s :: right) ∧
    r.heap.fresh ∉ allAddresses (left++s :: right) ∧ s.start ≤ mibloc ∧ mibloc < s.ending ∧
    (left ≠ [] ∨ s.start < mibloc) ∧ right.length < r.heap.fresh+2 := by
  obtain ⟨low,high,_⟩ := name_between (proper_filled proper) proper.2.2.1
  obtain ⟨left,s,right,rfl,starts,ends⟩ := tiled_found good.tiled low high
  have new : r.heap.fresh ∉ allAddresses (left++s :: right) := fun mem => lt_irrefl _ (rep.below _ mem)
  have bound := slices_bound rep
  rw [length_append,length_cons] at bound
  refine ⟨left,s,right,rfl,represents_frame rep (Nat.le_succ _) fun a mem => ?_,new,starts,ends,?_,by omega⟩
  · have apart : a ≠ r.heap.fresh := fun equal => new (equal ▸ mem)
    simp [apart]
  cases left with
  | nil =>
    refine .inr ?_
    rw [show s.start = [0] from good.tiled.1]
    exact root_first proper.1 low
  | cons t left => exact .inl (cons_ne_nil t left)

theorem represents_freed (rep : Represents r slices) (away : x ∉ allAddresses slices) :
    Represents ⟨r.heap.free x,r.first⟩ slices :=
  represents_frame rep le_rfl fun a mem => by
    have apart : a ≠ x := fun equal => away (equal ▸ mem)
    simp [apart]

theorem register_calls (null : ρ) (known : r.first.isNone = false) (filled : mibloc ≠ [])
    (loaded : subtreeLoad (r.heap.fresh+2) ⟨r.heap.alloc (newSubtree var mibloc priority info),r.first⟩ (some r.heap.fresh) = some (r',code)) :
    netsnmpRegisterMib null r var mibloc priority 0 rangeUbound info =
      some (if code ≠ .registeredOk then ⟨r'.heap.free r.heap.fresh,r'.first⟩ else r',code) := by
  have direct : netsnmpSubtreeLoad null ⟨r.heap.alloc (newSubtree var mibloc priority info),r.first⟩ (some r.heap.fresh) = some (r',code) := by
    simp only [netsnmpSubtreeLoad,known,Bool.false_eq_true,if_false]
    exact loaded
  rw [netsnmpRegisterMib,if_neg filled]
  simp only [bind_eq_bind,bind_some,direct]
  split <;> rfl

theorem belongs_more (filled : e.name ≠ []) :
    also (belongs live) e.name (raiseLast e.name) e o f ↔ belongs (e :: live) o f := by
  unfold also belongs
  rw [mem_cons]
  constructor
  · rintro (⟨mem,begins⟩ | ⟨low,high,rfl⟩)
    · exact ⟨.inr mem,begins⟩
    · exact ⟨.inl rfl,(begins_between filled o).mp ⟨low,high⟩⟩
  rintro ⟨rfl | mem,begins⟩
  · obtain ⟨low,high⟩ := (begins_between filled o).mpr begins
    exact .inr ⟨low,high,rfl⟩
  · exact .inl ⟨mem,begins⟩

theorem liveOk_more (ok : LiveOk null live) (bounds : e.name ≠ [] ∧ e.name.headD 0 ≤ 2 ∧ e.priority < 256)
    (new : ∀ f ∈ live, ¬(f.name = e.name ∧ f.priority = e.priority)) : LiveOk null (e :: live) where
  bounds := forall_mem_cons.mpr ⟨bounds,ok.bounds⟩
  keys f mem g other same equal := by
    rcases mem_cons.mp mem with rfl | old
    · rcases mem_cons.mp other with rfl | old'
      · rfl
      · exact absurd ⟨same,equal⟩ (new g old')
    · rcases mem_cons.mp other with rfl | old'
      · exact absurd ⟨same.symm,equal.symm⟩ (new f old)
      · exact ok.keys f old g old' same equal
  roots f mem := .tail _ (ok.roots f mem)

theorem key_free (filled : e.name ≠ []) (new : ∀ f ∈ live, ¬(f.name = e.name ∧ f.priority = e.priority)) (o : Oid)
    (above : e.name ≤ o) (below : o < raiseLast e.name) (f : Entry ρ) (covers : belongs live o f) : ¬SameKey f e := by
  rintro ⟨length,equal⟩
  have here := (begins_between filled o).mp ⟨above,below⟩
  exact new f covers.1 ⟨(prefix_of_prefix_length_le covers.2 here length.le).eq_of_length length,equal⟩

section
variable (holds : Holds null r live) (proper : ProperName mibloc)
include holds proper

theorem load_new (new : ∀ f ∈ live, ¬(f.name = mibloc ∧ f.priority = (priority%256).toNat)) :
    ∃ r', subtreeLoad (r.heap.fresh+2) ⟨r.heap.alloc (newSubtree var mibloc priority info),r.first⟩ (some r.heap.fresh) =
        some (r',.registeredOk) ∧ Holds null r' (⟨mibloc,(priority%256).toNat,info⟩ :: live) := by
  obtain ⟨ok,slices,rep,good⟩ := holds
  have filled := proper_filled proper
  have ends := (name_between filled proper.2.2.1).2.2
  obtain ⟨node,made,begins,ending,alone,named⟩ := newSubtree_proper proper var priority info
  obtain ⟨left,s,right,rfl,rep,outside,low,high,preceded,fuel⟩ := alloc_placed rep good proper node
  have cell : (r.heap.alloc node).cells r.heap.fresh = some node := by simp
  rw [made]
  rw [← begins] at low high preceded
  obtain ⟨e,entry⟩ : ∃ e : Entry ρ, e = ⟨mibloc,(priority%256).toNat,info⟩ := ⟨_,rfl⟩
  rw [← entry] at named ⊢
  obtain rfl : e.name = mibloc := by rw [entry]
  have byte : e.priority < 256 := by
    rw [entry]
    show (priority%256).toNat < 256
    omega
  have free : ∀ f ∈ live, ¬(f.name = e.name ∧ f.priority = e.priority) := by
    rw [show e.priority = (priority%256).toNat by rw [entry]]
    exact new
  obtain ⟨r',slices',run,rep',good',_⟩ := load_across rep good outside (Nat.lt_succ_self _) cell alone
    named low high (by rw [begins,ending]; exact lt_raiseLast filled) (by rw [ending]; exact ends) preceded
    (by rw [begins,ending]; exact key_free filled free) fuel
  rw [begins,ending] at good'
  exact ⟨r',run,liveOk_more ok ⟨filled,proper.2.2.1,byte⟩ free,slices',rep',good_other good' fun o _ _ f => belongs_more filled⟩

omit holds proper in
theorem key_stored (priority : Int) : (f.name = name ∧ f.priority = (priority%256).toNat) ↔
    named name (priority%256) f = true := by
  rw [named_iff,← priority_stored priority]
  exact and_congr_right fun _ => Int.ofNat_inj.symm

theorem register_new (new : ¬live.any (named mibloc (priority%256)) = true) :
    ∃ r', netsnmpRegisterMib null r var mibloc priority 0 rangeUbound info = some (r',.registeredOk) ∧
      Holds null r' (⟨mibloc,(priority%256).toNat,info⟩ :: live) := by
  obtain ⟨r',run,after⟩ := load_new holds proper fun f mem same => new (any_eq_true.mpr ⟨f,mem,(key_stored priority).mp same⟩)
  refine ⟨r',?_,after⟩
  rw [register_calls null (first_known holds) (proper_filled proper) run]
  rfl

theorem register_again (taken : ∃ f ∈ live, f.name = mibloc ∧ (f.priority : Int) = priority%256) :
    ∃ r', netsnmpRegisterMib null r var mibloc priority 0 rangeUbound info = some (r',.duplicateRegistration) ∧ Holds null r' live := by
  have known := first_known holds
  have filled := proper_filled proper
  obtain ⟨ok,slices,rep,good⟩ := holds
  obtain ⟨node,made,begins,ending,alone,named⟩ := newSubtree_proper proper var priority info
  obtain ⟨left,s,right,rfl,rep,outside,low,high,_⟩ := alloc_placed rep good proper node
  have cell : (r.heap.alloc node).cells r.heap.fresh = some node := by simp
  obtain ⟨f,mem,same,equal⟩ := taken
  have clash : ∃ f, belongs live mibloc f ∧ SameKey f (⟨mibloc,(priority%256).toNat,info⟩ : Entry ρ) := by
    refine ⟨f,⟨mem,same ▸ prefix_rfl⟩,by rw [same],?_⟩
    show f.priority = (priority%256).toNat
    omega
  obtain ⟨r',slices',run,rep',good',_,away⟩ := load_taken rep good outside (Nat.lt_succ_self _) cell alone
    named (by rw [begins]; exact low) (by rw [begins]; exact high)
    (by rw [begins,ending]; exact lt_raiseLast filled) (by rw [begins]; exact clash) (Nat.le_add_left 2 r.heap.fresh)
  refine ⟨⟨r'.heap.free r.heap.fresh,r'.first⟩,?_,ok,slices',represents_freed rep' away,good'⟩
  rw [register_calls null known filled (made ▸ run)]
  rfl

end

end

section
variable {name : Oid} {priority : Int} {e : Entry ρ}

theorem liveOk_less (ok : LiveOk null live) (long : 2 ≤ name.length) :
    LiveOk null (live.filter fun e => !named name priority e) where
  bounds f mem := ok.bounds f (mem_of_mem_filter mem)
  keys f mem g other := ok.keys f (mem_of_mem_filter mem) g (mem_of_mem_filter other)
  roots f mem := by
    refine mem_filter.mpr ⟨ok.roots f mem,?_⟩
    have short : f.name.length = 1 := by
      simp only [roots,mem_cons,not_mem_nil,or_false] at mem
      rcases mem with rfl | rfl | rfl <;> rfl
    have other : f.name ≠ name := fun equal => by
      rw [equal] at short
      omega
    simp [named,other]

theorem belongs_less (ok : LiveOk null live) (mem : e ∈ live) :
    without (belongs live) e o f ↔ belongs (live.filter fun g => !named e.name e.priority g) o f := by
  unfold without belongs
  rw [mem_filter]
  constructor
  · rintro ⟨⟨present,begins⟩,other⟩
    refine ⟨⟨present,?_⟩,begins⟩
    have unnamed : ¬named e.name e.priority f = true := fun same => by
      obtain ⟨name,priority⟩ := named_iff.mp same
      exact other (ok.keys e mem f present name (Int.ofNat.inj priority))
    simpa using unnamed
  · rintro ⟨⟨present,unnamed⟩,begins⟩
    refine ⟨⟨present,begins⟩,fun equal => ?_⟩
    rw [equal] at unnamed
    simp [named] at unnamed

theorem filter_shorter (present : live.any (named name priority) = true) :
    (live.filter fun e => !named name priority e).length < live.length := by
  obtain ⟨e,mem,same⟩ := any_eq_true.mp present
  refine length_filter_lt_length_iff_exists.mpr ⟨e,mem,?_⟩
  simp [same]

theorem round_live (ok : LiveOk null live) (rep : Represents r slices) (good : Good (belongs live) [0] [3] slices) (long : 2 ≤ name.length)
    (present : live.any (named name priority) = true) : ∃ r' x slices', unregisterRound r name priority = some (some (r',x)) ∧
      Represents r' slices' ∧ Good (belongs (live.filter fun e => !named name priority e)) [0] [3] slices' ∧
      r'.heap.fresh = r.heap.fresh ∧ x ∉ allAddresses slices' ∧ (allAddresses slices').length < (allAddresses slices).length := by
  obtain ⟨e,mem,same⟩ := any_eq_true.mp present
  obtain ⟨rfl,rfl⟩ := named_iff.mp same
  obtain ⟨filled,small,_⟩ := ok.bounds e mem
  obtain ⟨low,_,high⟩ := name_between filled small
  have sole : ∀ o f, belongs live o f → f.name = e.name → f.priority = e.priority → f = e := fun o f present => ok.keys e mem f present.1
  have more : ∀ o, [0] ≤ o → o < [3] → ∃ f, belongs live o f ∧ f ≠ e := by
    intro o low high
    obtain ⟨f,present,short⟩ := root_belongs ok low high
    refine ⟨f,present,fun equal => ?_⟩
    rw [equal] at short
    omega
  obtain ⟨r',x,slices',run,rep',good',fresh,away,shorter⟩ := round_ok sole more rep good low (lt_raiseLast filled) high
    (belongs_interval filled mem)
  exact ⟨r',x,slices',run,rep',good_other good' fun o _ _ f => belongs_less ok mem,fresh,away,shorter⟩

theorem round_missing (rep : Represents r slices) (good : Good (belongs live) [0] [3] slices)
    (missing : ¬live.any (named name priority) = true) : unregisterRound r name priority = some none :=
  round_none rep good fun f present same => missing (any_eq_true.mpr ⟨f,present.1,named_iff.mpr same⟩)

-- The loop over a range follows the one over the live registrations; each round takes nodes
-- out of the slices.
theorem unregister_run (priority : Int) : ∀ {fuel gas : Nat} {live : List (Entry ρ)} {r : Registry ρ}
    {slices : List (Slice ρ)} {name : Oid}, LiveOk null live → Represents r slices → Good (belongs live) [0] [3] slices →
    2 ≤ name.length → (allAddresses slices).length < fuel → live.length < gas →
    ∃ r' name', unregisterLoop priority position rangeUbound orig fuel r name =
        some (r',name',(dropNames priority position rangeUbound orig gas live name).2) ∧
      Holds null r' (dropNames priority position rangeUbound orig gas live name).1 := by
  intro fuel
  induction fuel with
  | zero =>
    intro gas live r slices name _ _ _ _ enough
    omega
  | succ fuel ih =>
    intro gas live r slices name ok rep good long enough more
    obtain ⟨gas,rfl⟩ : ∃ rest, gas = rest+1 := ⟨gas-1,by omega⟩
    by_cases present : live.any (named name priority) = true
    · obtain ⟨r1,x,slices1,run,rep1,good1,_,away,shorter⟩ := round_live ok rep good long present
      have ok1 : LiveOk null (live.filter fun e => !named name priority e) := liveOk_less ok long
      rw [unregisterLoop,run,dropNames,if_pos present]
      simp only [bind_eq_bind,bind_some]
      by_cases single : orig = -1
      · rw [if_pos single,if_pos (.inl single)]
        exact ⟨_,_,rfl,ok1,slices1,represents_freed rep1 away,good1⟩
      rw [if_neg single]
      by_cases done : raised (name.getD position 0) ≥ toOid (orig+rangeUbound)
      · rw [if_pos done,if_pos (.inr done)]
        exact ⟨_,_,rfl,ok1,slices1,represents_freed rep1 away,good1⟩
      · rw [if_neg done,if_neg (by simp only [single,done,or_self,not_false_eq_true])]
        exact ih ok1 rep1 good1 (by rw [length_set]; exact long) (by omega)
          (lt_of_lt_of_le (filter_shorter present) (by omega))
    · rw [unregisterLoop,round_missing rep good present,dropNames,if_neg present]
      exact ⟨r,name,rfl,ok,slices,rep,good⟩

end

theorem perform_holds (holds : Holds null r live) (proper : ProperCall call) :
    ∃ r', perform null r call = some (r',(liveAfter live call).2) ∧ Holds null r' (liveAfter live call).1 := by
  cases call with
  | register var mibloc priority rangeUbound info =>
    rw [liveAfter,perform]
    by_cases taken : live.any (named mibloc (priority%256)) = true
    · rw [if_pos taken]
      obtain ⟨f,mem,same⟩ := any_eq_true.mp taken
      exact register_again holds proper ⟨f,mem,named_iff.mp same⟩
    · rw [if_neg taken]
      exact register_new holds proper taken
  | unregister name priority rangeSubid rangeUbound =>
    obtain ⟨ok,slices,rep,good⟩ := holds
    have enough : (allAddresses slices).length < r.heap.fresh+1 := Nat.lt_succ_of_le (addresses_bound rep.distinct rep.below)
    obtain ⟨r',name',run,after⟩ := unregister_run priority
      ok rep good proper enough
      (Nat.lt_succ_self live.length)
    refine ⟨r',?_,after⟩
    rw [perform,unregisterMibContext,run]
    rfl

theorem performAll_holds : ∀ {calls : List (Call ρ)} {live : List (Entry ρ)} {r : Registry ρ}, Holds null r live →
    (∀ call ∈ calls, ProperCall call) →
    ∃ r', performAll null r calls = some (r',(liveAll live calls).2) ∧ Holds null r' (liveAll live calls).1
  | [],_,r,holds,_ => ⟨r,rfl,holds⟩
  | call :: calls,live,r,holds,proper => by
    obtain ⟨r1,run,holds1⟩ := perform_holds holds (proper call (.head _))
    obtain ⟨r2,rest,holds2⟩ := performAll_holds holds1 (forall_mem_cons.mp proper).2
    refine ⟨r2,?_,holds2⟩
    rw [performAll,run]
    simp only [bind_eq_bind,bind_some,rest]
    rfl

theorem nullContext_cells (null : ρ) : ∃ r, nullContext null = some r ∧ r.first = some 0 ∧ r.heap.fresh = 3 ∧
    r.heap.cells 0 = some ⟨[0],[0],[1],[],0,some 1,none,none,0,null⟩ ∧
    r.heap.cells 1 = some ⟨[1],[1],[2],[],0,some 2,some 0,none,1,null⟩ ∧
    r.heap.cells 2 = some ⟨[2],[2],[3],[],0,none,some 1,none,1,null⟩ := ⟨_,rfl,rfl,rfl,rfl,rfl,rfl⟩

theorem single_serves (null : ρ) (small : a ≤ 2) (o : Oid) (low : [a] ≤ o) (high : o < [a+1]) (e : Entry ρ) :
    belongs (roots null) o e ↔ e ∈ [(⟨[a],0,null⟩ : Entry ρ)] := by
  have begins : [a] <+: o := (begins_between (cons_ne_nil a []) o).mp ⟨low,high⟩
  obtain ⟨rest,rfl⟩ := begins
  simp only [belongs,roots,mem_cons,not_mem_nil,or_false,cons_append,nil_append]
  rcases (by omega : a = 0 ∨ a = 1 ∨ a = 2) with rfl | rfl | rfl
  all_goals
    constructor
    · rintro ⟨rfl | rfl | rfl,begins⟩
      all_goals simp_all
    · rintro rfl
      simp

theorem nullContext_holds (null : ρ) : ∃ r, nullContext null = some r ∧ Holds null r (roots null) := by
  obtain ⟨r,made,first,fresh,zero,one,two⟩ := nullContext_cells null
  refine ⟨r,made,⟨?_,?_,fun _ mem => mem⟩,
    [⟨[0],[1],[(0,⟨[0],0,null⟩)]⟩,⟨[1],[2],[(1,⟨[1],0,null⟩)]⟩,⟨[2],[3],[(2,⟨[2],0,null⟩)]⟩],⟨first,?_,?_,?_⟩,?_⟩
  · simp [roots]
  · simp [roots]
  · refine ⟨⟨by simp,⟨⟨_,zero,rfl,rfl,rfl,rfl,rfl,rfl,rfl,rfl⟩,trivial⟩,fun _ wrong => by cases wrong⟩,
      ⟨by simp,⟨⟨_,one,rfl,rfl,rfl,rfl,rfl,rfl,rfl,rfl⟩,trivial⟩,?_⟩,⟨by simp,⟨⟨_,two,rfl,rfl,rfl,rfl,rfl,rfl,rfl,rfl⟩,trivial⟩,?_⟩,trivial⟩
    · rintro _ ⟨⟩ _ ⟨⟩ node here
      rw [one] at here
      cases here
      rfl
    · rintro _ ⟨⟩ _ ⟨⟩ node here
      rw [two] at here
      cases here
      rfl
  · simp [allAddresses,addresses]
  · rw [fresh]
    simp [allAddresses,addresses]
  · refine good_cons.mpr ⟨rfl,cons_lt_cons_iff.mpr (.inl (by decide)),pairwise_singleton _ _,single_serves null (by omega),
      good_cons.mpr ⟨rfl,cons_lt_cons_iff.mpr (.inl (by decide)),pairwise_singleton _ _,single_serves null (by omega),
      good_cons.mpr ⟨rfl,cons_lt_cons_iff.mpr (.inl (by decide)),pairwise_singleton _ _,single_serves null (by omega),⟨rfl,by simp,by simp⟩⟩⟩⟩

-- After every run of calls the slices cover the tree, and each OID goes to the longest name.
theorem runs_dispatch (null : ρ) (calls : List (Call ρ)) (proper : ∀ call ∈ calls, ProperCall call) :
    ∃ start r, nullContext null = some start ∧ performAll null start calls = some (r,(liveAll (roots null) calls).2) ∧
      (∃ columns, sliceList r = some columns ∧ Contiguous [0] [3] columns ∧ ∀ column ∈ columns, (column.map entryOf).Pairwise Before) ∧
      (∀ oid, ∃ found, answer r oid = some found ∧ Dispatched (liveAll (roots null) calls).1 oid found) ∧
      ∀ var mibloc priority rangeUbound info, ProperName mibloc →
        (∃ e ∈ (liveAll (roots null) calls).1, e.name = mibloc ∧ (e.priority : Int) = priority%256) →
        ∃ r', netsnmpRegisterMib null r var mibloc priority 0 rangeUbound info = some (r',.duplicateRegistration) ∧
          ∀ oid, answer r' oid = answer r oid := by
  obtain ⟨start,made,begins⟩ := nullContext_holds null
  obtain ⟨r,run,holds⟩ := performAll_holds begins proper
  obtain ⟨slices,rep,good⟩ := holds.2
  obtain ⟨columns,list,contiguous,ordered,_⟩ := sliceList_good rep good
  refine ⟨start,r,made,run,⟨columns,list,contiguous,ordered⟩,answer_dispatched holds,fun var mibloc priority rangeUbound info name taken => ?_⟩
  obtain ⟨r',refused,still⟩ := register_again holds name taken
  refine ⟨r',refused,fun oid => ?_⟩
  obtain ⟨found,one,dispatched⟩ := answer_dispatched holds oid
  obtain ⟨other,two,dispatched'⟩ := answer_dispatched still oid
  rw [one,two,dispatched_unique dispatched dispatched']

theorem runs_dispatch_twice : ∃ start r, nullContext 0 = some start ∧
    performAll 0 start [.register [] [1,2] 5 0 7,.register [] [1,2] 5 0 8,.unregister [1,2] 5 0 0] =
      some (r,[.registeredOk,.duplicateRegistration,.unregisteredOk]) := by
  obtain ⟨start,r,made,run,_⟩ := runs_dispatch 0 [.register [] [1,2] 5 0 7,.register [] [1,2] 5 0 8,.unregister [1,2] 5 0 0]
    (by simp [ProperCall,ProperName])
  exact ⟨start,r,made,run⟩

-- Without the null registration of a root the slices begin behind it.
theorem root_unregistered : ∃ start r columns, nullContext 0 = some start ∧
    perform 0 start (.unregister [0] 0 0 0) = some (r,.unregisteredOk) ∧ sliceList r = some columns ∧ ¬Contiguous [0] [3] columns := by
  have run : ((nullContext 0).bind fun start => (perform 0 start (.unregister [0] 0 0 0)).bind fun out =>
      (sliceList out.1).map fun columns => (out.2,columns.map fun column => column.map Subtree.start)) =
        some (.unregisteredOk,[[[1]],[[2]]]) := by decide
  obtain ⟨start,made,run⟩ := Option.bind_eq_some_iff.mp run
  obtain ⟨⟨r,code⟩,out,run⟩ := Option.bind_eq_some_iff.mp run
  obtain ⟨columns,list,shown⟩ := Option.map_eq_some_iff.mp run
  obtain ⟨same,starts⟩ := Prod.mk.inj shown
  obtain rfl : code = .unregisteredOk := same
  refine ⟨start,r,columns,made,out,list,fun contiguous => ?_⟩
  cases columns with
  | nil => cases starts
  | cons column columns =>
    obtain ⟨_,_,about,_⟩ := contiguous
    obtain ⟨first,_⟩ := cons.inj starts
    cases column with
    | nil => cases first
    | cons node column =>
      have begins := (about node (.head _)).1
      have other : node.start = [1] := (cons.inj first).1
      rw [begins] at other
      cases other

end NetSnmp.AgentRegistry
