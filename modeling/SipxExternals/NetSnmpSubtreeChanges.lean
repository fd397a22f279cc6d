import Mathlib.Data.List.TakeWhile
import SipxExternals.NetSnmpSubtreeSlices

namespace NetSnmp.AgentRegistry
open Foundations.Heaps Foundations.Lex NetSnmp.AsnTypes
open List (cons_ne_nil mem_append mem_append_left mem_append_right mem_cons mem_singleton nil_append nodup_cons pairwise_append pairwise_cons)
open Option (bind_eq_bind bind_some map_eq_bind map_some)
open Heap (adjust_cells)

section
variable {ρ : Type} {h : Heap (Subtree ρ)} {start ending : Oid} {prev next : Option Nat}

def lastOr (prev : Option Nat) : List (Nat × Entry ρ) → Option Nat
  | [] => prev
  | (a,_) :: rest => lastOr (some a) rest

theorem lastOr_append (prev : Option Nat) : lastOr prev (front++back) = lastOr (lastOr prev front) back := by
  induction front generalizing prev with
  | nil => rfl
  | cons first front ih => exact ih (some first.1)

theorem skipWhile_column {choose : Entry ρ → Bool}
    (reads : ∀ node e, node.name = e.name → node.priority = e.priority → test node = choose e) :
    ∀ {front back : List (Nat × Entry ρ)} {fuel : Nat} (previous : Option Nat),
    ColumnAt h start ending prev next none (front++back) → (∀ p ∈ front, choose p.2 = true) →
    (∀ p ∈ back.head?, choose p.2 = false) → (front++back).length ≤ fuel →
    skipWhile h test fuel previous (headOr none (front++back)) = some (lastOr previous front,headOr none back)
  | [],[],_,_,_,_,_,_ => by
    rw [nil_append,headOr,skipWhile]
    rfl
  | [],(a,e) :: back,fuel,previous,held,_,stops,enough => by
    obtain ⟨⟨node,here,shown⟩,_⟩ := held
    cases fuel with
    | zero => simp at enough
    | succ fuel =>
      have failed := stops (a,e) rfl
      rw [nil_append,headOr,skipWhile,here]
      simp only [bind_eq_bind,bind_some,reads node e shown.name shown.priority,failed]
      rfl
  | (a,e) :: front,back,fuel,previous,held,passes,stops,enough => by
    obtain ⟨⟨node,here,shown⟩,rest⟩ := held
    cases fuel with
    | zero => simp at enough
    | succ fuel =>
      have passed := passes (a,e) (.head _)
      have deeper := skipWhile_column reads (some a) rest (List.forall_mem_cons.mp passes).2 stops
        (Nat.le_of_succ_le_succ enough)
      rw [List.cons_append,headOr,skipWhile,here]
      simp only [bind_eq_bind,bind_some,reads node e shown.name shown.priority,passed,if_true,shown.children]
      exact deeper

-- The order of the children: the longer name first, and then the lower priority.
def Before (left right : Entry ρ) : Prop :=
  right.name.length < left.name.length ∨ (left.name.length = right.name.length ∧ left.priority < right.priority)

instance (left right : Entry ρ) : Decidable (Before left right) := inferInstanceAs (Decidable (_ ∨ _))

theorem before_trans (first : Before a b) (second : Before b c) : Before a c := by
  unfold Before at *
  omega

theorem before_asymm (first : Before a b) : ¬Before b a := by
  unfold Before at *
  omega

def Ordered (column : List (Nat × Entry ρ)) : Prop := column.Pairwise fun p q => Before p.2 q.2

-- The tests of the two loops of the merge.
def longer (e f : Entry ρ) : Bool := f.name.length > e.name.length

def lower (e f : Entry ρ) : Bool := f.name.length = e.name.length ∧ f.priority < e.priority

-- A child in the place where the two loops end: none behind it is before the new one.
theorem none_before {back : List (Nat × Entry ρ)} (ordered : Ordered (front++(middle++back)))
    (shorter : ∀ p ∈ (middle++back).head?, longer e p.2 = false) (same : ∀ p ∈ middle, lower e p.2 = true)
    (stops : ∀ p ∈ back.head?, lower e p.2 = false) : ∀ p ∈ back, ¬Before p.2 e := by
  cases back with
  | nil =>
    intro p wrong
    cases wrong
  | cons q back =>
    obtain ⟨_,inner,_⟩ := pairwise_append.mp ordered
    obtain ⟨_,behind,across⟩ := pairwise_append.mp inner
    have first : ¬Before q.2 e := by
      rintro (more | equal)
      · cases middle with
        | nil => exact of_decide_eq_false (shorter q rfl) more
        | cons m middle =>
          have length := (of_decide_eq_true (same m (.head _))).1
          have order := across m (.head _) q (.head _)
          unfold Before at order
          omega
      · exact of_decide_eq_false (stops q rfl) equal
    intro p mem
    rcases mem_cons.mp mem with rfl | later
    · exact first
    · exact fun below => first (before_trans ((pairwise_cons.mp behind).1 p later) below)

theorem while_split (test : α → Bool) (l : List α) : ∃ front back, l = front++back ∧ (∀ p ∈ front, test p = true) ∧
    ∀ p ∈ back.head?, test p = false := by
  refine ⟨l.takeWhile test,l.dropWhile test,List.takeWhile_append_dropWhile.symm,fun p mem => List.mem_takeWhile_imp mem,fun p mem => ?_⟩
  have first := List.head?_dropWhile_not test l
  rw [Option.mem_def.mp mem] at first
  exact first

theorem place_found {column : List (Nat × Entry ρ)} (ordered : Ordered column) (e : Entry ρ) : ∃ front middle back,
    column = front++(middle++back) ∧ (∀ p ∈ front, longer e p.2 = true) ∧ (∀ p ∈ (middle++back).head?, longer e p.2 = false) ∧
    (∀ p ∈ middle, lower e p.2 = true) ∧ (∀ p ∈ back.head?, lower e p.2 = false) ∧ ∀ p ∈ back, ¬Before p.2 e := by
  obtain ⟨front,rest,rfl,early,shorter⟩ := while_split (fun p => longer e p.2) column
  obtain ⟨middle,back,rfl,same,stops⟩ := while_split (fun p => lower e p.2) rest
  exact ⟨front,middle,back,rfl,early,shorter,same,stops,none_before ordered shorter same stops⟩

end

section
variable {ρ : Type} {r : Registry ρ} {h2 : Heap (Subtree ρ)} {left right : List (Slice ρ)} {s : Slice ρ} {x : Nat}

-- A node gets the slices beside it; their own nodes stay as they are.
theorem settle_links (rep : Represents r (left++s :: right)) (outside : x ∉ allAddresses (left++s :: right))
    (same : ∀ a ∈ allAddresses left++allAddresses right, h2.cells a = r.heap.cells a) (here : h2.cells x = some node)
    (begins : node.start = s.start) : ∃ h3 h4 off, netsnmpSubtreeChangePrev h2 x ((lastMark none left).map Prod.fst) = some h3 ∧
      netsnmpSubtreeChangeNext h3 x (headAfter none right) = some h4 ∧
      h4.cells x = some {node with prev := (lastMark none left).map Prod.fst, next := headAfter none right, oidOff := off} ∧
      (∀ b ∈ lastMark none left, off = place b.2 s.start) ∧ h4.fresh = h2.fresh ∧ ∀ y, y ≠ x → h4.cells y = h2.cells y := by
  have besideOut : ∀ a ∈ allAddresses left++allAddresses right, a ≠ x := fun a mem equal =>
    outside (equal ▸ beside_listed s a mem)
  obtain ⟨leftLinked,held,rightLinked⟩ := linked_append.mp rep.linked
  have previous : ∀ p ∈ lastMark none left, p.1 ≠ x ∧ ∃ other, h2.cells p.1 = some other ∧ other.start = p.2 := by
    intro p mem
    cases hcase : left with
    | nil =>
      rw [hcase] at mem
      cases mem
    | cons t rest =>
      obtain ⟨m,mark,inside,_,cells⟩ := last_chain leftLinked (by rw [hcase]; exact cons_ne_nil t rest)
      rw [mark] at mem
      cases mem
      have listed := mem_append_left (allAddresses right) (lastAddresses_all left p.1 inside)
      obtain ⟨other,there,first⟩ := cells p.1 inside
      exact ⟨besideOut p.1 listed,other,by rw [same p.1 listed]; exact there,first⟩
  have prevStep := changePrev_set here previous
  have following : ∀ n ∈ headAfter none right, n ≠ x ∧ ∃ other, h2.cells n = some other ∧ other.oidOff = place s.start other.start := by
    intro n mem
    cases right with
    | nil => cases mem
    | cons t right =>
      obtain ⟨a,e,rest,other,column,there,shown,offset⟩ := held_head rightLinked.1
      rw [headAfter,column] at mem
      cases mem
      have listed : n ∈ allAddresses left++allAddresses (t :: right) :=
        mem_append_right _ (mem_append_left _ (by simp [addresses,column]))
      have mark : ∃ m, s.mark = some (m,s.start) := by
        obtain ⟨b,_,_,_,columnS,_⟩ := held_head held
        exact ⟨b,by rw [Slice.mark,columnS]; rfl⟩
      obtain ⟨m,mark⟩ := mark
      refine ⟨besideOut n listed,other,by rw [same n listed]; exact there,?_⟩
      rw [offset (m,s.start) mark,shown.start]
  have middle : (h2.adjust (prevSet [x] (lastMark none left))).cells x = some (prevSet [x] (lastMark none left) x node) := by
    rw [adjust_cells,here]
    rfl
  have nextStep := changeNext_set middle (fun n mem => by
    obtain ⟨apart,other,there,_⟩ := following n mem
    exact ⟨apart,_,by rw [adjust_cells,there]; rfl⟩)
  obtain ⟨off,changed,offsets⟩ : ∃ off, prevSet [x] (lastMark none left) x node =
      {node with prev := (lastMark none left).map Prod.fst, oidOff := off} ∧ ∀ b ∈ lastMark none left, off = place b.2 s.start := by
    cases lastMark none left with
    | none => exact ⟨node.oidOff,by simp [prevSet],by simp⟩
    | some b => exact ⟨place b.2 s.start,by simp [prevSet,begins],by simp⟩
  refine ⟨_,_,off,prevStep,nextStep,?_,offsets,rfl,fun y apart => ?_⟩
  · rw [adjust_cells,middle,changed]
    simp [nextSet]
  rw [adjust_cells,adjust_cells]
  cases cell : h2.cells y with
  | none => rfl
  | some v =>
    have unmoved : prevSet [x] (lastMark none left) y v = v := by simp [prevSet,apart]
    rw [map_some,map_some,unmoved,nextSet,if_neg (by simpa using apart)]
    split
    · rename_i next
      obtain ⟨_,other,there,offset⟩ := following y next.2.symm
      rw [cell] at there
      cases there
      rw [prevSet_start,begins,← offset]
    · rfl

section
variable {h : Heap (Subtree ρ)} {n : Nat} {node : Subtree ρ} (rep : Represents r (left++s :: right)) (larger : r.heap.fresh ≤ h.fresh)
variable (here : h.cells n = some node)
include rep larger here

theorem firsts_run (same : ∀ a ∈ allAddresses right, h.cells a = r.heap.cells a) (outside : n ∉ allAddresses right) :
    changePrevAll h (headAfter none right) (some n) = some (h.adjust (prevSet (nextAddresses right) (some (n,node.start)))) := by
  obtain ⟨_,_,rightLinked⟩ := linked_append.mp rep.linked
  have agree : ∀ a ∈ nextAddresses right, h.cells a = r.heap.cells a := fun a mem => same a (nextAddresses_all right a mem)
  have chain := chain_same (fun a mem => by rw [agree a mem]) (next_chain rightLinked)
  have before : ∀ p ∈ some (n,node.start), p.1 ∉ nextAddresses right ∧ ∃ other, h.cells p.1 = some other ∧ other.start = p.2 := by
    intro p equal
    cases equal
    exact ⟨fun mem => outside (nextAddresses_all right n mem),node,here,rfl⟩
  exact changePrevAll_set chain (nextAddresses_nodup (slices_apart rep.distinct).behind) (fun a mem => (rep.below a
    (beside_listed s a (mem_append_right _ (nextAddresses_all right a mem)))).trans_le larger)
    (chain_cells chain) before

theorem lasts_run (same : ∀ a ∈ allAddresses left, h.cells a = r.heap.cells a) (outside : n ∉ allAddresses left) :
    ∃ start, changeNextAll h ((lastMark none left).map Prod.fst) (some n) = some (h.adjust (nextSet (lastAddresses left) (some n) start)) ∧
      ∀ m ∈ lastMark none left, m.2 = start ∧ lastAddresses left ≠ [] := by
  obtain ⟨leftLinked,_⟩ := linked_append.mp rep.linked
  by_cases empty : left = []
  · subst empty
    refine ⟨[],?_,fun _ wrong => by cases wrong⟩
    rw [Heap.adjust_same fun a v _ => by simp [nextSet,lastAddresses]]
    rw [changeNextAll,lastMark,Option.map_none,walk]
  obtain ⟨m,mark,inside,chain,cells⟩ := last_chain leftLinked empty
  have agree : ∀ a ∈ lastAddresses left, h.cells a = r.heap.cells a := fun a mem => same a (lastAddresses_all left a mem)
  refine ⟨m.2,?_,fun k equal => ?_⟩
  · rw [mark]
    refine changeNextAll_set (chain_same (fun a mem => by rw [agree a mem]) chain) (lastAddresses_nodup (slices_apart rep.distinct).before)
      (fun a mem => (rep.below a (beside_listed s a (mem_append_left _ (lastAddresses_all left a mem)))).trans_le larger)
      (fun a mem => by rw [agree a mem]; exact cells a mem) fun k equal => ?_
    cases equal
    exact ⟨fun mem => outside (lastAddresses_all left n mem),node,here⟩
  · rw [mark] at equal
    cases equal
    exact ⟨rfl,List.ne_nil_of_mem inside⟩

-- The two loops together, when another node becomes the head of a slice.
structure Reheaded (r : Registry ρ) (h h' : Heap (Subtree ρ)) (left right : List (Slice ρ)) (start : Oid) (n : Nat) (node : Subtree ρ) :
    Prop where
  lasts : ∀ a ∈ lastAddresses left, h'.cells a = (r.heap.cells a).map fun v => {v with next := some n}
  firsts : ∀ a ∈ nextAddresses right, h'.cells a = (r.heap.cells a).map fun v => {v with prev := some n, oidOff := place start v.start}
  head : ∃ off, h'.cells n = some {node with oidOff := off} ∧ (∀ b ∈ lastMark none left, off = place b.2 start) ∧
    (left = [] → off = node.oidOff)
  others : ∀ a, a ≠ n → a ∉ lastAddresses left → a ∉ nextAddresses right → h'.cells a = h.cells a
  fresh : h'.fresh = h.fresh

omit rep larger here in
theorem Reheaded.kept (reheaded : Reheaded r h h' left right start n node) (a : Nat) (apart : a ≠ n)
    (out : a ∉ allAddresses left++allAddresses right) : h'.cells a = h.cells a :=
  reheaded.others a apart (fun early => out (mem_append_left _ (lastAddresses_all left a early)))
    fun late => out (mem_append_right _ (nextAddresses_all right a late))

variable (same : ∀ a ∈ allAddresses left++allAddresses right, h.cells a = r.heap.cells a)
variable (outside : n ∉ allAddresses left++allAddresses right)
include same outside

omit larger in
theorem reheaded_cells (known : ∀ m ∈ lastMark none left, m.2 = start ∧ lastAddresses left ≠ [])
    (cells : ∀ a, h'.cells a = (h.cells a).map fun v =>
      nextSet (lastAddresses left) (some n) start a (prevSet (nextAddresses right) (some (n,node.start)) a v))
    (fresh : h'.fresh = h.fresh) : Reheaded r h h' left right node.start n node := by
  have leftIn := lastAddresses_all left
  have rightIn := nextAddresses_all right
  have across : ∀ a ∈ lastAddresses left, a ∉ nextAddresses right := fun a first second =>
    (slices_apart rep.distinct).across a (leftIn a first) (rightIn a second)
  have leftOut : n ∉ lastAddresses left := fun mem => outside (mem_append_left _ (leftIn n mem))
  have rightOut : n ∉ nextAddresses right := fun mem => outside (mem_append_right _ (rightIn n mem))
  refine ⟨fun a mem => ?_,fun a mem => ?_,?_,fun a other first second => ?_,fresh⟩
  · rw [cells a,same a (mem_append_left _ (leftIn a mem))]
    simp [nextSet,prevSet,mem,across a mem]
  · have early : a ∉ lastAddresses left := fun inside => across a inside mem
    have other : a ≠ n := fun equal => rightOut (equal ▸ mem)
    rw [cells a,same a (mem_append_right _ (rightIn a mem))]
    simp [nextSet,prevSet,mem,early,other]
  · rw [cells n,here]
    by_cases empty : left = []
    · subst empty
      exact ⟨node.oidOff,by simp [nextSet,prevSet,rightOut,lastAddresses],(fun _ wrong => by cases wrong),fun _ => rfl⟩
    obtain ⟨m,mark,inside,_⟩ := last_chain (linked_append.mp rep.linked).1 empty
    obtain ⟨equal,filled⟩ := known m mark
    refine ⟨place start node.start,by simp [nextSet,prevSet,rightOut,leftOut,filled],fun b mem => ?_,fun wrong => absurd wrong empty⟩
    rw [mark] at mem
    cases mem
    rw [equal]
  · rw [cells a]
    simp [nextSet,prevSet,first,second,other]

theorem firsts_lasts : ∃ h5 h6, changePrevAll h (headAfter none right) (some n) = some h5 ∧
    changeNextAll h5 ((lastMark none left).map Prod.fst) (some n) = some h6 ∧ Reheaded r h h6 left right node.start n node := by
  have apart := slices_apart rep.distinct
  have first := firsts_run rep larger here (List.forall_mem_append.mp same).2
    fun mem => outside (mem_append_right _ mem)
  have moved : (h.adjust (prevSet (nextAddresses right) (some (n,node.start)))).cells n = some node := by
    have rightOut : n ∉ nextAddresses right := fun mem => outside (mem_append_right _ (nextAddresses_all right n mem))
    simp [here,prevSet,rightOut]
  have kept : ∀ a ∈ allAddresses left, (h.adjust (prevSet (nextAddresses right) (some (n,node.start)))).cells a = r.heap.cells a := by
    intro a mem
    have out : a ∉ nextAddresses right := fun later => apart.across a mem (nextAddresses_all right a later)
    rw [← same a (mem_append_left _ mem)]
    exact Heap.adjust_kept fun v => by simp [prevSet,out]
  obtain ⟨start,second,known⟩ := lasts_run rep (h := h.adjust _) larger moved kept fun mem => outside (mem_append_left _ mem)
  refine ⟨_,_,first,second,reheaded_cells rep here same outside known (fun a => ?_) rfl⟩
  rw [Heap.adjust_adjust]
  rfl

theorem lasts_firsts : ∃ h5 h6, changeNextAll h ((lastMark none left).map Prod.fst) (some n) = some h5 ∧
    changePrevAll h5 (headAfter none right) (some n) = some h6 ∧ Reheaded r h h6 left right node.start n node := by
  have across := (slices_apart rep.distinct).across
  obtain ⟨start,first,known⟩ := lasts_run rep larger here (List.forall_mem_append.mp same).1
    fun mem => outside (mem_append_left _ mem)
  have rightOut : n ∉ nextAddresses right := fun mem => outside (mem_append_right _ (nextAddresses_all right n mem))
  obtain ⟨other,moved,begins⟩ : ∃ other, (h.adjust (nextSet (lastAddresses left) (some n) start)).cells n = some other ∧
      other.start = node.start := ⟨_,by rw [adjust_cells,here]; rfl,nextSet_start ..⟩
  have kept : ∀ a ∈ allAddresses right, (h.adjust (nextSet (lastAddresses left) (some n) start)).cells a = r.heap.cells a := by
    intro a mem
    have early : a ∉ lastAddresses left := fun inside => across a (lastAddresses_all left a inside) mem
    have apart : a ≠ n := fun equal => outside (mem_append_right _ (equal ▸ mem))
    rw [← same a (mem_append_right _ mem)]
    exact Heap.adjust_kept fun v => by simp [nextSet,early,apart]
  have second := firsts_run rep (h := h.adjust _) larger moved kept fun mem => outside (mem_append_right _ mem)
  rw [begins] at second
  refine ⟨_,_,first,second,reheaded_cells rep here same outside known (fun a => ?_) rfl⟩
  rw [Heap.adjust_adjust,adjust_cells]
  by_cases early : a ∈ lastAddresses left
  · have late : a ∉ nextAddresses right := fun later => across a (lastAddresses_all left a early) (nextAddresses_all right a later)
    simp [nextSet,prevSet,early,late]
  by_cases late : a ∈ nextAddresses right
  · have apart : a ≠ n := fun equal => rightOut (equal ▸ late)
    simp [nextSet,prevSet,early,late,apart]
  · simp [prevSet,late]

end

theorem linkChild_inner {h : Heap (Subtree ρ)} (there : h.cells p = some before) (apart : x ≠ p) (here : h.cells x = some node) :
    linkChild h x (some p) next =
      (netsnmpSubtreeChangePrev ((h.put p {before with children := some x}).put x {node with children := next}) x before.prev).bind
        fun h => netsnmpSubtreeChangeNext h x before.next := by
  have stays : (h.put p {before with children := some x}).cells x = some node := by simp [apart,here]
  simp only [linkChild,bind_eq_bind,bind_some,there,stays]

theorem linkChild_first {h : Heap (Subtree ρ)} (there : h.cells n = some after) (apart : n ≠ x) (here : h.cells x = some node) :
    linkChild h x none (some n) = (netsnmpSubtreeChangePrev (h.put x {node with children := some n}) x after.prev).bind fun h =>
      (netsnmpSubtreeChangeNext h x after.next).bind fun h => (changePrevAll h after.next (some x)).bind fun h =>
        changeNextAll h after.prev (some x) := by
  have stays : (h.put x {node with children := some n}).cells n = some after := by simp [apart,there]
  simp only [linkChild,bind_eq_bind,bind_some,here,stays]

-- What stands behind one child of a slice is replaced.
theorem held_tail {first old : List (Nat × Entry ρ)} (new : List (Nat × Entry ρ)) {h h' : Heap (Subtree ρ)} (held : Held h before after s)
    (column : s.column = (first++[(p,ep)])++old) (there : h.cells p = some node)
    (changed : h'.cells p = some {node with children := headOr none new}) (same : ∀ a ∈ addresses first, h'.cells a = h.cells a)
    (tail : ColumnAt h' s.start s.ending (before.map Prod.fst) after none new) :
    headOr none ((first++[(p,ep)])++new) = headOr none s.column ∧ Held h' before after ⟨s.start,s.ending,(first++[(p,ep)])++new⟩ := by
  have head : headOr none ((first++[(p,ep)])++new) = headOr none s.column := by
    rw [column]
    cases first <;> rfl
  have cells := held.column
  rw [column] at cells
  obtain ⟨front,⟨_,here,shown⟩,_⟩ := columnAt_append.mp (columnAt_append.mp cells).1
  rw [there] at here
  cases here
  refine ⟨head,held_kept held rfl head (columnAt_append.mpr ⟨columnAt_append.mpr ⟨columnAt_frame same front,⟨_,changed,
    {shown with children := rfl}⟩,trivial⟩,tail⟩) fun a inside => ?_⟩
  by_cases equal : a = p
  · rw [equal,changed,there]
    rfl
  · rw [column,List.append_assoc] at inside
    cases first with
    | nil =>
      cases inside
      exact absurd rfl equal
    | cons q first =>
      cases inside
      rw [same q.1 (.head _)]

theorem last_single (distinct : (addresses ((first++[(p,ep)])++back : List (Nat × Entry ρ))).Nodup) :
    p ∉ addresses first++addresses back := by
  have parts : addresses ((first++[(p,ep)])++back) = addresses first++p :: addresses back := by simp [addresses]
  rw [parts,List.nodup_middle] at distinct
  exact (nodup_cons.mp distinct).1

section
variable {front back : List (Nat × Entry ρ)} {e : Entry ρ} {node : Subtree ρ}
variable (rep : Represents r (left++s :: right)) (column : s.column = front++back)
variable (outside : x ∉ allAddresses (left++s :: right)) (small : x < r.heap.fresh)
include rep column outside small

theorem inserted_addresses (e : Entry ρ) : (allAddresses (left++⟨s.start,s.ending,front++(x,e) :: back⟩ :: right)).Nodup ∧
    ∀ a ∈ allAddresses (left++⟨s.start,s.ending,front++(x,e) :: back⟩ :: right), a < r.heap.fresh := by
  have old : allAddresses (left++s :: right) = (allAddresses left++addresses front)++(addresses back++allAddresses right) := by
    simp [allAddresses,addresses,column]
  have new : allAddresses (left++⟨s.start,s.ending,front++(x,e) :: back⟩ :: right) =
      (allAddresses left++addresses front)++([x]++(addresses back++allAddresses right)) := by
    simp [allAddresses,addresses]
  have distinct := rep.distinct
  have below := rep.below
  rw [old] at distinct below outside
  rw [new]
  refine ⟨nodup_middle distinct (List.nodup_singleton x) (fun n mem => by rw [mem_singleton.mp mem]; exact outside),?_⟩
  intro a mem
  rcases mem_append.mp mem with inside | inside
  · exact below a (mem_append_left _ inside)
  rcases mem_append.mp inside with single | later
  · rw [mem_singleton.mp single]
    exact small
  · exact below a (mem_append_right _ later)

variable (here : r.heap.cells x = some node) (begins : node.start = s.start) (ends : node.ending = s.ending)
variable (named : e = ⟨node.name,node.priority,node.info⟩)
include here begins ends named

theorem link_inner (filled : front ≠ []) : ∃ h', linkChild r.heap x (lastOr none front) (headOr none back) = some h' ∧
    Represents ⟨h',r.first⟩ (left++⟨s.start,s.ending,front++(x,e) :: back⟩ :: right) ∧ h'.fresh = r.heap.fresh ∧
    ∀ y, y ≠ x → y ∉ allAddresses (left++s :: right) → h'.cells y = r.heap.cells y := by
  obtain ⟨distinct,below⟩ := inserted_addresses rep column outside small e
  obtain ⟨_,held,_⟩ := linked_append.mp rep.linked
  have cells := held.column
  have apart := slices_apart rep.distinct
  have columnOut : ∀ a ∈ addresses s.column, a ≠ x := fun a mem same =>
    outside (same ▸ column_listed left right s a mem)
  rcases List.eq_nil_or_concat front with rfl | ⟨first,⟨p,ep⟩,rfl⟩
  · exact absurd rfl filled
  simp only [List.concat_eq_append] at *
  have pIn : p ∈ addresses s.column := by simp [column,addresses]
  have pOut : p ≠ x := columnOut p pIn
  have single : p ∉ addresses first++addresses back := last_single (column ▸ apart.inside)
  have listed : ∀ a ∈ addresses first++addresses back, a ∈ addresses s.column := fun a mem => by
    simp only [column,addresses,List.map_append,mem_append] at mem ⊢
    tauto
  rw [column] at cells
  obtain ⟨frontCells,backCells⟩ := columnAt_append.mp cells
  obtain ⟨_,⟨before,there,shown⟩,_⟩ := columnAt_append.mp frontCells
  obtain ⟨h2,changed⟩ : ∃ h2, h2 = (r.heap.put p {before with children := some x}).put x {node with children := headOr none back} :=
    ⟨_,rfl⟩
  have same : ∀ a, a ≠ p → a ≠ x → h2.cells a = r.heap.cells a := fun a apart other => by simp [changed,apart,other]
  have beside : ∀ a ∈ allAddresses left++allAddresses right, h2.cells a = r.heap.cells a := fun a mem =>
    same a (fun equal => apart.beside p pIn (equal ▸ mem)) fun equal => outside (equal ▸ beside_listed s a mem)
  have pCell : h2.cells p = some {before with children := some x} := by simp [changed,pOut]
  have xCell : h2.cells x = some {node with children := headOr none back} := by simp [changed]
  obtain ⟨h3,h4,off,prevStep,nextStep,linked,_,fresh,others⟩ := settle_links rep outside beside xCell begins
  have size : h4.fresh = r.heap.fresh := by
    rw [fresh,changed]
    rfl
  have pFinal : h4.cells p = some {before with children := some x} := (others p pOut).trans pCell
  have stays : ∀ a ∈ addresses first++addresses back, h4.cells a = r.heap.cells a := fun a mem => by
    rw [others a (columnOut a (listed a mem)),same a (fun equal => single (equal ▸ mem)) (columnOut a (listed a mem))]
  obtain ⟨head,heldNew⟩ := held_tail ((x,e) :: back) held column there pFinal (List.forall_mem_append.mp stays).1
    ⟨⟨_,linked,by rw [named],by rw [named],by rw [named],begins,ends,rfl,rfl,rfl⟩,
      columnAt_frame (List.forall_mem_append.mp stays).2 backCells⟩
  refine ⟨h4,?_,⟨?_,linked_column rep rfl head (fun a mem => ?_) heldNew,distinct,fun a mem => ?_⟩,size,fun y apart out => ?_⟩
  · have last : lastOr none (first++[(p,ep)]) = some p := by rw [lastOr_append]; rfl
    rw [last,linkChild_inner there pOut.symm here,← changed,shown.prev,prevStep,bind_some,shown.next,nextStep]
  · rw [headAfter_append,headAfter,head]
    exact rep.first.trans (headAfter_append _)
  · rw [← beside a mem]
    exact others a fun equal => outside (equal ▸ beside_listed s a mem)
  · exact (below a mem).trans_eq size.symm
  · rw [others y apart]
    exact same y (fun equal => out (column_listed left right s y (equal ▸ pIn))) apart

omit column in
theorem link_first (preceded : left ≠ []) : ∃ h', linkChild r.heap x none (headOr none s.column) = some h' ∧
    Represents ⟨h',r.first⟩ (left++⟨s.start,s.ending,(x,e) :: s.column⟩ :: right) ∧ h'.fresh = r.heap.fresh ∧
    ∀ y, y ≠ x → y ∉ allAddresses (left++s :: right) → h'.cells y = r.heap.cells y := by
  obtain ⟨distinct,below⟩ := inserted_addresses rep (nil_append s.column).symm outside small e
  obtain ⟨_,held,_⟩ := linked_append.mp rep.linked
  obtain ⟨n,en,rest,after,column,there,shown,_⟩ := held_head held
  have head : headOr none s.column = some n := by rw [column]; rfl
  have columnOut : ∀ a ∈ addresses s.column, a ≠ x := fun a mem same =>
    outside (same ▸ column_listed left right s a mem)
  have besideOut : x ∉ allAddresses left++allAddresses right := fun mem => outside (beside_listed s x mem)
  have nOut : n ≠ x := columnOut n (by simp [column,addresses])
  obtain ⟨h2,changed⟩ : ∃ h2, h2 = r.heap.put x {node with children := some n} := ⟨_,rfl⟩
  have same : ∀ a, a ≠ x → h2.cells a = r.heap.cells a := fun a apart => by simp [changed,apart]
  have beside : ∀ a ∈ allAddresses left++allAddresses right, h2.cells a = r.heap.cells a := fun a mem =>
    same a fun equal => besideOut (equal ▸ mem)
  have xCell : h2.cells x = some {node with children := some n} := by simp [changed]
  obtain ⟨h3,h4,off,prevStep,nextStep,linked,_,fresh,others⟩ := settle_links rep outside beside xCell begins
  have agree : ∀ a ∈ allAddresses left++allAddresses right, h4.cells a = r.heap.cells a := fun a mem =>
    (others a fun equal => besideOut (equal ▸ mem)).trans (beside a mem)
  have size : h4.fresh = r.heap.fresh := by
    rw [fresh,changed]
    rfl
  obtain ⟨h5,h6,firsts,lasts,reheaded⟩ := firsts_lasts rep size.ge linked agree besideOut
  obtain ⟨off',xFinal,offset,_⟩ := reheaded.head
  have kept : ∀ a, a ≠ x → a ∉ allAddresses left++allAddresses right → h6.cells a = r.heap.cells a := fun a apart out => by
    rw [reheaded.kept a apart out,others a apart,same a apart]
  have heldNew : Held h6 (lastMark none left) (headAfter none right) ⟨s.start,s.ending,(x,e) :: s.column⟩ := by
    refine ⟨by simp,⟨⟨_,xFinal,?_⟩,columnAt_frame (fun a mem => ?_) held.column⟩,?_⟩
    · exact ⟨by rw [named],by rw [named],by rw [named],begins,ends,rfl,rfl,head.symm⟩
    · exact kept a (columnOut a mem) ((slices_apart rep.distinct).beside a mem)
    intro b inside a first other cell
    cases first
    rw [xFinal] at cell
    cases cell
    show off' = place b.2 s.start
    rw [offset b inside]
    exact congrArg (place b.2) begins
  refine ⟨h6,?_,⟨?_,?_,distinct,?_⟩,?_,?_⟩
  · rw [head,linkChild_first there nOut here,← changed,shown.prev,prevStep,bind_some,shown.next,nextStep,bind_some,firsts,
      bind_some,lasts]
  · have first := rep.first
    cases left with
    | nil => exact absurd rfl preceded
    | cons t left => exact first
  · refine linked_head rep rfl rfl reheaded.lasts ?_ (fun a mem early late => ?_) heldNew
    · rw [← begins]
      exact reheaded.firsts
    · rw [reheaded.others a (fun equal => besideOut (equal ▸ mem)) early late,agree a mem]
  · exact fun a mem => (below a mem).trans_eq (reheaded.fresh.trans size).symm
  · exact reheaded.fresh.trans size
  · exact fun y apart out => kept y apart fun mem => out (beside_listed s y mem)

end

section
variable {e : Entry ρ} {node : Subtree ρ} {a : Nat}

def SameKey (left right : Entry ρ) : Prop := left.name.length = right.name.length ∧ left.priority = right.priority

instance (left right : Entry ρ) : Decidable (SameKey left right) := inferInstanceAs (Decidable (_ ∧ _))

theorem before_total (left right : Entry ρ) (other : ¬SameKey left right) : Before left right ∨ Before right left := by
  unfold Before SameKey at *
  omega

theorem samekey_before {left right : Entry ρ} (same : SameKey left right) (first : Before other left) : Before other right := by
  unfold Before SameKey at *
  omega

theorem merge_place (ordered : Ordered column)
    (held : ColumnAt h start ending prev next none column) (enough : column.length ≤ h.fresh) (named : e = ⟨node.name,node.priority,node.info⟩) :
    ∃ front back prev2 next2, column = front++back ∧
      skipWhile h (fun other => other.name.length > node.name.length) h.fresh none (headOr none column) = some (prev2,next2) ∧
      skipWhile h (fun other => other.name.length = node.name.length ∧ other.priority < node.priority) h.fresh prev2 next2 =
        some (lastOr none front,headOr none back) ∧ (∀ p ∈ front, Before p.2 e) ∧ (∀ p ∈ back, ¬Before p.2 e) := by
  obtain ⟨front,middle,back,parts,early,shorter,same,stops,behind⟩ := place_found ordered e
  have length : e.name.length = node.name.length := by rw [named]
  have priority : e.priority = node.priority := by rw [named]
  rw [parts] at held enough
  refine ⟨front++middle,back,lastOr none front,headOr none (middle++back),by rw [parts,List.append_assoc],?_,?_,?_,behind⟩
  · rw [parts]
    refine skipWhile_column (fun other f name _ => ?_) none held early shorter enough
    rw [longer,name,length]
  · rw [lastOr_append]
    refine skipWhile_column (fun other f name priorities => ?_) _ (columnAt_append.mp held).2 same stops ?_
    · rw [lower,name,priorities,length,priority]
    · rw [List.length_append] at enough
      omega
  · intro p mem
    exact (mem_append.mp mem).imp (fun front => of_decide_eq_true (early p front)) fun middle => of_decide_eq_true (same p middle)

variable (rep : Represents r (left++s :: right)) (ordered : Ordered s.column) (head : headOr none s.column = some a)
variable (here : r.heap.cells x = some node) (named : e = ⟨node.name,node.priority,node.info⟩)
include rep ordered head here named

theorem merge_run : ∃ front back, s.column = front++back ∧ (∀ p ∈ front, Before p.2 e) ∧ (∀ p ∈ back, ¬Before p.2 e) ∧
    mergeChild r x a = if ∃ p ∈ back.head?, SameKey p.2 e then some (r,.duplicateRegistration)
      else (linkChild r.heap x (lastOr none front) (headOr none back)).map fun h => ({r with heap := h},.registeredOk) := by
  obtain ⟨_,held,_⟩ := linked_append.mp rep.linked
  have enough : s.column.length ≤ r.heap.fresh := by
    have bound := addresses_bound (slices_apart rep.distinct).inside fun b mem => rep.below b (column_listed left right s b mem)
    simpa [addresses] using bound
  obtain ⟨front,back,prev2,next2,parts,first,second,before,behind⟩ := merge_place ordered held.column enough named
  refine ⟨front,back,parts,before,behind,?_⟩
  rw [head] at first
  have cells := held.column
  rw [parts] at cells
  obtain ⟨_,backCells⟩ := columnAt_append.mp cells
  rw [mergeChild,here]
  simp only [bind_eq_bind,bind_some]
  rw [first]
  simp only [bind_some]
  rw [second]
  cases back with
  | nil => simp [headOr,map_eq_bind]
  | cons q back =>
    obtain ⟨n,f⟩ := q
    obtain ⟨⟨other,there,shown⟩,_⟩ := backCells
    have key : (other.name.length = node.name.length ∧ other.priority = node.priority) ↔ SameKey f e := by
      rw [shown.name,shown.priority,SameKey,named]
    simp only [headOr,there,bind_some,key,List.head?_cons,Option.mem_some_iff,decide_eq_true_eq]
    split
    · rename_i taken
      simp [taken]
    · rename_i free
      simp [free,map_eq_bind]

theorem merge_taken (taken : ∃ p ∈ s.column, SameKey p.2 e) : mergeChild r x a = some (r,.duplicateRegistration) := by
  obtain ⟨front,back,parts,before,behind,run⟩ := merge_run rep ordered head here named
  obtain ⟨p,mem,same⟩ := taken
  have first : ∃ p ∈ back.head?, SameKey p.2 e := by
    rw [parts] at mem ordered
    rcases mem_append.mp mem with early | late
    · have order := before p early
      unfold Before SameKey at *
      omega
    cases back with
    | nil => cases late
    | cons q back =>
      refine ⟨q,rfl,?_⟩
      rcases mem_cons.mp late with rfl | later
      · exact same
      · have order := (pairwise_cons.mp (pairwise_append.mp ordered).2.1).1 p later
        exact absurd (samekey_before same order) (behind q (.head _))
  rw [run,if_pos first]

theorem merge_linked (preceded : left ≠ []) (outside : x ∉ allAddresses (left++s :: right)) (small : x < r.heap.fresh)
    (begins : node.start = s.start) (ends : node.ending = s.ending) (free : ∀ p ∈ s.column, ¬SameKey p.2 e) :
    ∃ h' front back, s.column = front++back ∧ mergeChild r x a = some (⟨h',r.first⟩,.registeredOk) ∧
      Represents ⟨h',r.first⟩ (left++⟨s.start,s.ending,front++(x,e) :: back⟩ :: right) ∧ Ordered (front++(x,e) :: back) ∧
      h'.fresh = r.heap.fresh ∧ ∀ y, y ≠ x → y ∉ allAddresses (left++s :: right) → h'.cells y = r.heap.cells y := by
  obtain ⟨front,back,parts,before,behind,run⟩ := merge_run rep ordered head here named
  rw [if_neg] at run
  · obtain ⟨h',linked,rest⟩ : ∃ h', linkChild r.heap x (lastOr none front) (headOr none back) = some h' ∧
        Represents ⟨h',r.first⟩ (left++⟨s.start,s.ending,front++(x,e) :: back⟩ :: right) ∧ h'.fresh = r.heap.fresh ∧
        ∀ y, y ≠ x → y ∉ allAddresses (left++s :: right) → h'.cells y = r.heap.cells y := by
      cases front with
      | nil =>
        have whole := link_first rep outside small here begins ends named preceded
        rw [parts] at whole
        exact whole
      | cons p front => exact link_inner rep parts outside small here begins ends named (cons_ne_nil p front)
    refine ⟨h',front,back,parts,by rw [run,linked]; rfl,rest.1,?_,rest.2⟩
    rw [parts] at ordered free
    obtain ⟨frontOrdered,backOrdered,across⟩ := pairwise_append.mp ordered
    refine pairwise_append.mpr ⟨frontOrdered,pairwise_cons.mpr ⟨fun q mem => ?_,backOrdered⟩,fun p mem q later => ?_⟩
    · exact (before_total _ _ (free q (mem_append_right _ mem))).resolve_left (behind q mem)
    · rcases mem_cons.mp later with rfl | later
      · exact before p mem
      · exact across p mem q later
  · rintro ⟨p,mem,same⟩
    rw [parts] at free
    exact free p (mem_append_right _ (List.mem_of_mem_head? mem)) same

end

abbrev Unloaded (r r' : Registry ρ) (slices : List (Slice ρ)) : Prop :=
  Represents r' slices ∧ r'.heap.fresh = r.heap.fresh ∧ ∀ y ∉ allAddresses slices, r'.heap.cells y = r.heap.cells y

section
variable {front back : List (Nat × Entry ρ)} {e : Entry ρ}
variable (rep : Represents r (left++s :: right)) (column : s.column = front++(x,e) :: back)
include rep column

theorem removed_addresses : (allAddresses (left++⟨s.start,s.ending,front++back⟩ :: right)).Nodup ∧
    x ∉ allAddresses (left++⟨s.start,s.ending,front++back⟩ :: right) ∧
    ∀ a ∈ allAddresses (left++⟨s.start,s.ending,front++back⟩ :: right), a ∈ allAddresses (left++s :: right) := by
  have old : allAddresses (left++s :: right) = (allAddresses left++addresses front)++x :: (addresses back++allAddresses right) := by
    simp [allAddresses,addresses,column]
  have new : allAddresses (left++⟨s.start,s.ending,front++back⟩ :: right) =
      (allAddresses left++addresses front)++(addresses back++allAddresses right) := by
    simp [allAddresses,addresses]
  have distinct := rep.distinct
  rw [old] at distinct
  obtain ⟨apart,rest⟩ := List.nodup_middle.mp distinct |> nodup_cons.mp
  rw [old,new]
  refine ⟨rest,apart,fun a mem => ?_⟩
  exact mem_append.mpr ((mem_append.mp mem).imp_right (.tail _))

theorem unload_inner (filled : front ≠ []) : ∃ r', netsnmpSubtreeUnload r x (lastOr none front) = some r' ∧
    Unloaded r r' (left++⟨s.start,s.ending,front++back⟩ :: right) := by
  obtain ⟨distinct,apart,listed⟩ := removed_addresses rep column
  obtain ⟨_,held,_⟩ := linked_append.mp rep.linked
  have cells := held.column
  rw [column] at cells
  rcases List.eq_nil_or_concat front with rfl | ⟨first,⟨p,ep⟩,rfl⟩
  · exact absurd rfl filled
  simp only [List.concat_eq_append] at *
  obtain ⟨frontCells,⟨node,here,shownX⟩,backCells⟩ := columnAt_append.mp cells
  obtain ⟨_,⟨before,there,shown⟩,_⟩ := columnAt_append.mp frontCells
  have last : lastOr none (first++[(p,ep)]) = some p := by rw [lastOr_append]; rfl
  have pIn : p ∈ addresses ((first++[(p,ep)])++back) := by simp [addresses]
  have new := slices_apart distinct
  have single : p ∉ addresses first++addresses back := last_single new.inside
  obtain ⟨h',changed⟩ : ∃ h', h' = r.heap.put p {before with children := headOr none back} := ⟨_,rfl⟩
  have same : ∀ a, a ≠ p → h'.cells a = r.heap.cells a := fun a apart => by simp [changed,apart]
  have stays : ∀ a ∈ addresses first++addresses back, h'.cells a = r.heap.cells a := fun a mem =>
    same a fun equal => single (equal ▸ mem)
  have pCell : h'.cells p = some {before with children := headOr none back} := by simp [changed]
  obtain ⟨head,heldNew⟩ := held_tail back held column there pCell (List.forall_mem_append.mp stays).1
    (columnAt_frame (List.forall_mem_append.mp stays).2 backCells)
  refine ⟨⟨h',r.first⟩,?_,⟨?_,linked_column rep rfl head (fun a mem => same a fun equal => ?_) heldNew,distinct,fun a mem => ?_⟩,
    by rw [changed]; rfl,fun y out => ?_⟩
  · rw [last,netsnmpSubtreeUnload,here]
    simp [there,shownX.children,changed]
  · rw [headAfter_append,headAfter,head]
    exact rep.first.trans (headAfter_append _)
  · exact new.beside p pIn (equal ▸ mem)
  · show a < h'.fresh
    rw [changed]
    exact rep.below a (listed a mem)
  · exact same y fun equal => out (column_listed left right _ y (equal ▸ pIn))

theorem unload_head (none_in_front : front = []) (filled : back ≠ []) : ∃ r', netsnmpSubtreeUnload r x none = some r' ∧
    Unloaded r r' (left++⟨s.start,s.ending,front++back⟩ :: right) := by
  obtain ⟨distinct,apart,listed⟩ := removed_addresses rep column
  subst none_in_front
  obtain ⟨leftLinked,held,_⟩ := linked_append.mp rep.linked
  have cells := held.column
  rw [column] at cells
  obtain ⟨⟨node,here,shown⟩,backCells⟩ := cells
  cases back with
  | nil => exact absurd rfl filled
  | cons second rest =>
  obtain ⟨n,en⟩ := second
  have new := slices_apart distinct
  obtain ⟨⟨after,there,shownN⟩,restCells⟩ := backCells
  obtain ⟨h5,h6,lasts,firsts,reheaded⟩ := lasts_firsts rep le_rfl there (fun _ _ => rfl) (new.beside n (.head _))
  obtain ⟨off,nFinal,offset,_⟩ := reheaded.head
  have heldNew : Held h6 (lastMark none left) (headAfter none right) ⟨s.start,s.ending,(n,en) :: rest⟩ := by
    refine ⟨by simp,⟨⟨_,nFinal,{shownN with}⟩,columnAt_frame (fun a mem => ?_) restCells⟩,?_⟩
    · exact reheaded.kept a (fun equal => (nodup_cons.mp new.inside).1 (equal ▸ mem)) (new.beside a (.tail _ mem))
    intro b inside a first other cell
    cases first
    rw [nFinal] at cell
    cases cell
    show off = place b.2 s.start
    rw [offset b inside,shownN.start]
  have children : node.children = some n := shown.children
  refine ⟨⟨h6,if node.prev = none then some n else r.first⟩,?_,⟨?_,?_,distinct,fun a mem => ?_⟩,reheaded.fresh,fun y out => ?_⟩
  · rw [netsnmpSubtreeUnload,here]
    simp only [bind_eq_bind,bind_some,children,Option.some_or]
    rw [shown.prev,lasts,bind_some,shown.next,firsts]
    rfl
  · show (if node.prev = none then some n else r.first) = _
    rw [shown.prev]
    cases hcase : left with
    | nil => rfl
    | cons t rest =>
      obtain ⟨m,mark,_⟩ := last_chain leftLinked (by rw [hcase]; exact cons_ne_nil t rest)
      have first := rep.first
      rw [hcase] at mark first
      rw [mark]
      exact first
  · refine linked_head rep rfl rfl reheaded.lasts ?_ (fun a mem early late => ?_) heldNew
    · rw [← shownN.start]
      exact reheaded.firsts
    · exact reheaded.others a (fun equal => new.beside n (.head _) (equal ▸ mem)) early late
  · show a < h6.fresh
    rw [reheaded.fresh]
    exact rep.below a (listed a mem)
  · refine reheaded.kept y (fun equal => out (column_listed left right _ y ?_)) fun mem => out (beside_listed _ y mem)
    rw [equal]
    exact .head _

theorem unload_slices (filled : front++back ≠ []) : ∃ r', netsnmpSubtreeUnload r x (lastOr none front) = some r' ∧
    Unloaded r r' (left++⟨s.start,s.ending,front++back⟩ :: right) := by
  cases front with
  | nil => exact unload_head rep column rfl filled
  | cons p front => exact unload_inner rep column (cons_ne_nil p front)

end

-- Cells that belong to no slice do not matter.
theorem represents_frame (rep : Represents r slices) (larger : r.heap.fresh ≤ h.fresh)
    (same : ∀ a ∈ allAddresses slices, h.cells a = r.heap.cells a) : Represents ⟨h,r.first⟩ slices :=
  ⟨rep.first,linked_frame same rep.linked,rep.distinct,fun a mem => (rep.below a mem).trans_le larger⟩

end

end NetSnmp.AgentRegistry
