import Mathlib.Data.List.Basic
import Mathlib.Data.List.Nodup
import Mathlib.Data.List.Perm.Basic

namespace Foundations.Heaps
open List

structure Heap (α : Type) where
  cells : Nat → Option α
  fresh : Nat

namespace Heap
variable {α : Type} {h : Heap α} {a b : Nat} {v : α}

def put (h : Heap α) (a : Nat) (v : α) : Heap α := {h with cells := fun b => if b = a then some v else h.cells b}

def free (h : Heap α) (a : Nat) : Heap α := {h with cells := fun b => if b = a then none else h.cells b}

def alloc (h : Heap α) (v : α) : Heap α := ⟨(h.put h.fresh v).cells,h.fresh+1⟩

def adjust (h : Heap α) (f : Nat → α → α) : Heap α := {h with cells := fun a => (h.cells a).map (f a)}

@[simp]
theorem put_cells : (h.put a v).cells b = if b = a then some v else h.cells b := rfl

@[simp]
theorem put_fresh : (h.put a v).fresh = h.fresh := rfl

@[simp]
theorem free_cells : (h.free a).cells b = if b = a then none else h.cells b := rfl

@[simp]
theorem free_fresh : (h.free a).fresh = h.fresh := rfl

@[simp]
theorem alloc_cells : (h.alloc v).cells b = if b = h.fresh then some v else h.cells b := rfl

@[simp]
theorem alloc_fresh : (h.alloc v).fresh = h.fresh+1 := rfl

@[simp]
theorem adjust_cells (f : Nat → α → α) : (h.adjust f).cells a = (h.cells a).map (f a) := rfl

@[simp]
theorem adjust_fresh : (h.adjust f).fresh = h.fresh := rfl

theorem adjust_adjust (f g : Nat → α → α) : (h.adjust f).adjust g = h.adjust fun a v => g a (f a v) := by
  simp only [adjust,Option.map_map]
  rfl

theorem adjust_same (same : ∀ a v, h.cells a = some v → f a v = v) : h.adjust f = h := by
  obtain ⟨cells,fresh⟩ := h
  simp only [adjust,Heap.mk.injEq,and_true]
  funext a
  cases hcase : cells a with
  | none => rfl
  | some v => simp [same a v hcase]

theorem adjust_congr (f g : Nat → α → α) (same : ∀ a v, h.cells a = some v → f a v = g a v) : h.adjust f = h.adjust g := by
  simp only [adjust,Heap.mk.injEq,and_true]
  funext a
  cases hcase : h.cells a with
  | none => rfl
  | some v => simp [same a v hcase]

theorem adjust_kept (same : ∀ v, f a v = v) : (h.adjust f).cells a = h.cells a := by
  rw [adjust_cells,funext same]
  exact Option.map_id'

theorem put_adjust (held : h.cells a = some v) (here : f a v = w) (others : ∀ b u, b ≠ a → f b u = u) : h.put a w = h.adjust f := by
  simp only [put,adjust,Heap.mk.injEq,and_true]
  funext b
  by_cases same : b = a
  · simp [same,held,here]
  · rw [if_neg same,funext fun u => others b u same]
    exact Option.map_id'.symm

theorem put_put : (h.put a v).put a w = h.put a w := by
  simp only [put,Heap.mk.injEq,and_true]
  funext b
  by_cases same : b = a
  · simp [same]
  · simp [same]

end Heap

section
variable {α : Type} {h h' : Heap α} {link : α → Option Nat}

-- The addresses on the way from a pointer along a link, to its end.
def Chain (link : α → Option Nat) (h : Heap α) : Option Nat → List Nat → Prop
  | pointer,[] => pointer = none
  | pointer,a :: rest => pointer = some a ∧ ∃ v, h.cells a = some v ∧ Chain link h (link v) rest

-- A loop along a link; none if it comes to a cell that is not there or has no end.
def walk (step : Heap α → Nat → Option (Heap α)) (link : α → Option Nat) : Nat → Option Nat → Heap α → Option (Heap α)
  | _,none,h => some h
  | 0,some _,_ => none
  | fuel+1,some a,h => do
    let h ← step h a
    let v ← h.cells a
    walk step link fuel (link v) h

def keepsLink (link : α → Option Nat) (h h' : Heap α) : Prop := ∀ a, (h'.cells a).map link = (h.cells a).map link

theorem chain_same : ∀ {addresses : List Nat} {pointer : Option Nat},
    (∀ a ∈ addresses, (h'.cells a).map link = (h.cells a).map link) → Chain link h pointer addresses → Chain link h' pointer addresses
  | [],_,_,chain => chain
  | a :: _,_,kept,⟨same,v,held,rest⟩ => by
    have linked := kept a (.head _)
    rw [held] at linked
    cases hcase : h'.cells a with
    | none => simp [hcase] at linked
    | some w =>
      rw [hcase] at linked
      have equal : link w = link v := by simpa using linked
      exact ⟨same,w,hcase,equal ▸ chain_same (forall_mem_cons.mp kept).2 rest⟩

theorem chain_kept (kept : keepsLink link h h')
    (chain : Chain link h pointer addresses) : Chain link h' pointer addresses :=
  chain_same (fun a _ => kept a) chain

theorem chain_cells : ∀ {addresses : List Nat} {pointer : Option Nat}, Chain link h pointer addresses →
    ∀ a ∈ addresses, ∃ v, h.cells a = some v
  | [],_,_,_,wrong => by cases wrong
  | b :: rest,_,⟨_,v,held,chain⟩,a,mem => by
    rcases mem_cons.mp mem with rfl | later
    · exact ⟨v,held⟩
    · exact chain_cells chain a later

-- The loop is a fold over the addresses when its step leaves the links alone.
theorem walk_fold (keeps : ∀ h a h', step h a = some h' → keepsLink link h h')
    (chain : Chain link h pointer addresses) (enough : addresses.length ≤ fuel) :
    walk step link fuel pointer h = addresses.foldlM step h := by
  induction addresses generalizing h pointer fuel with
  | nil =>
    cases chain
    rw [walk]
    rfl
  | cons a addresses ih =>
    obtain ⟨rfl,v,held,rest⟩ := chain
    cases fuel with
    | zero => simp at enough
    | succ fuel =>
      rw [walk,foldlM_cons]
      cases stepped : step h a with
      | none => rfl
      | some h' =>
        have kept := keeps h a h' stepped
        have linked := kept a
        rw [held] at linked
        cases hcase : h'.cells a with
        | none => simp [hcase] at linked
        | some w =>
          rw [hcase] at linked
          have equal : link w = link v := by simpa using linked
          have deeper := ih (chain_kept kept rest) (Nat.le_of_succ_le_succ enough)
          simp only [Option.bind_eq_bind,Option.bind_some,hcase,equal]
          exact deeper

theorem keepsLink_adjust (same : ∀ a v, link (f a v) = link v) : keepsLink link h (h.adjust f) := by
  intro a
  simp only [Heap.adjust_cells,Option.map_map]
  congr 1
  funext v
  exact same a v

theorem keepsLink_trans (first : keepsLink link h h') (second : keepsLink link h' h'') :
    keepsLink link h h'' := fun a => (second a).trans (first a)

theorem keepsLink_put (held : h.cells a = some v) (same : link w = link v) : keepsLink link h (h.put a w) := by
  intro b
  rw [Heap.put_cells]
  split
  · rename_i equal
    rw [equal,held]
    simp [same]
  · rfl

theorem addresses_bound {addresses : List Nat} (distinct : addresses.Nodup) (below : ∀ a ∈ addresses, a < n) :
    addresses.length ≤ n := by
  have inside : addresses ⊆ range n := fun a mem => mem_range.mpr (below a mem)
  simpa using (subperm_of_subset distinct inside).length_le

end

end Foundations.Heaps
