import SipxExternals.FoundationsHeap
import SipxExternals.NetSnmpAsnTypes

namespace NetSnmp.AgentRegistry
open Foundations.Heaps NetSnmp.AsnTypes

-- The sub-identifiers are unsigned longs of 64 bits.
abbrev Oid := List Nat

structure Variable where
  name : Oid
  type : Nat

def asnPrivDelegated : Nat := 0xc5

structure Subtree (ρ : Type) where
  name : Oid
  start : Oid
  ending : Oid
  vars : List Variable
  priority : Nat
  next : Option Nat
  prev : Option Nat
  children : Option Nat
  oidOff : Nat
  info : ρ

inductive Code where
  | registeredOk
  | duplicateRegistration
  | registrationFailed
  | unregisteredOk
  | noSuchRegistration
  deriving DecidableEq

structure Registry (ρ : Type) where
  heap : Heap (Subtree ρ)
  first : Option Nat

section
variable {ρ : Type}

def compareLlLoop : Nat → Oid → Oid → Int × Nat
  | off,[],[] => (0,off)
  | off,[],_ :: _ => (-1,off)
  | off,_ :: _,[] => (1,off)
  | off,first :: rest,other :: others =>
    if first ≠ other then (if first < other then -1 else 1,off) else compareLlLoop (off+1) rest others

def netsnmpOidCompareLl (name1 name2 : Oid) : Int × Nat := compareLlLoop 1 name1 name2

-- A comparison is left out when the subtree differs from the one before it only behind the place
-- where that one differed from the name.
def findPrevLoop (h : Heap (Subtree ρ)) (name : Oid) : Nat → Option Nat → Option Nat → Nat → Option (Option Nat)
  | _,previous,none,_ => some previous
  | 0,_,some _,_ => none
  | fuel+1,previous,some myptr,llOff => do
    let node ← h.cells myptr
    if llOff ≠ 0 ∧ node.oidOff ≠ 0 ∧ node.oidOff > llOff then findPrevLoop h name fuel (some myptr) node.next llOff
    else if (netsnmpOidCompareLl name node.start).1 < 0 then some previous
    else findPrevLoop h name fuel (some myptr) node.next (netsnmpOidCompareLl name node.start).2

-- With the lookup cache off.
def netsnmpSubtreeFindPrev (r : Registry ρ) (name : Oid) (subtree : Option Nat) : Option (Option Nat) :=
  findPrevLoop r.heap name r.heap.fresh none (subtree.or r.first) 0

def filledLoop (h : Heap (Subtree ρ)) : Nat → Option Nat → Option (Option Nat)
  | _,none => some none
  | 0,some _ => none
  | fuel+1,some myptr => do
    let node ← h.cells myptr
    if node.vars.isEmpty then filledLoop h fuel node.next else some (some myptr)

def netsnmpSubtreeFindNext (r : Registry ρ) (name : Oid) (subtree : Option Nat) : Option (Option Nat) := do
  match ← netsnmpSubtreeFindPrev r name subtree with
  | some myptr =>
    let node ← r.heap.cells myptr
    filledLoop r.heap r.heap.fresh node.next
  | none =>
    match subtree with
    | none => some none
    | some s =>
      let node ← r.heap.cells s
      if snmpOidCompare name node.start < 0 then some (some s) else some none

def netsnmpSubtreeFind (r : Registry ρ) (name : Oid) (subtree : Option Nat) : Option (Option Nat) := do
  match ← netsnmpSubtreeFindPrev r name subtree with
  | none => some none
  | some myptr =>
    let node ← r.heap.cells myptr
    if snmpOidCompare name node.ending < 0 then some (some myptr) else some none

def skipWhile (h : Heap (Subtree ρ)) (test : Subtree ρ → Bool) : Nat → Option Nat → Option Nat → Option (Option Nat × Option Nat)
  | _,prev,none => some (prev,none)
  | 0,_,some _ => none
  | fuel+1,prev,some next => do
    let node ← h.cells next
    if test node then skipWhile h test fuel (some next) node.children else some (prev,some next)

end

section
variable {ρ : Type}

def netsnmpSubtreeChangeNext (h : Heap (Subtree ρ)) (ptr : Nat) (thenext : Option Nat) : Option (Heap (Subtree ρ)) := do
  let node ← h.cells ptr
  let h := h.put ptr {node with next := thenext}
  match thenext with
  | none => some h
  | some n =>
    let other ← h.cells n
    some (h.put n {other with oidOff := (netsnmpOidCompareLl node.start other.start).2})

def netsnmpSubtreeChangePrev (h : Heap (Subtree ρ)) (ptr : Nat) (theprev : Option Nat) : Option (Heap (Subtree ρ)) := do
  let node ← h.cells ptr
  let h := h.put ptr {node with prev := theprev}
  match theprev with
  | none => some h
  | some p =>
    let other ← h.cells p
    some (h.put ptr {node with prev := theprev, oidOff := (netsnmpOidCompareLl other.start node.start).2})

def changeNextAll (h : Heap (Subtree ρ)) (pointer thenext : Option Nat) : Option (Heap (Subtree ρ)) :=
  walk (fun h ptr => netsnmpSubtreeChangeNext h ptr thenext) Subtree.children h.fresh pointer h

def changePrevAll (h : Heap (Subtree ρ)) (pointer theprev : Option Nat) : Option (Heap (Subtree ρ)) :=
  walk (fun h ptr => netsnmpSubtreeChangePrev h ptr theprev) Subtree.children h.fresh pointer h

-- How many variables the first part has and how many the second part lacks, by the part of the
-- name behind the one of the registration.
def countVariables (rest : Oid) : List Variable → Nat × Nat
  | [] => (0,0)
  | vp :: vars =>
    let commonLen := if rest.length > vp.name.length then vp.name.length else rest.length
    if snmpOidCompare vp.name rest ≥ 0 then (0,0)
    else
      ((countVariables rest vars).1+1,
        if snmpOidCompare (vp.name.take commonLen) (rest.take commonLen) < 0 then (countVariables rest vars).2+1
        else (countVariables rest vars).2)

def firstVariables (node : Subtree ρ) (name : Oid) : List Variable :=
  node.vars.take (countVariables (name.drop node.name.length) node.vars).1

def secondVariables (node : Subtree ρ) (name : Oid) : List Variable :=
  match firstVariables node name with
  | vp :: _ =>
    if vp.type = asnPrivDelegated then [vp]
    else node.vars.drop (countVariables (name.drop node.name.length) node.vars).2
  | [] => node.vars.drop (countVariables (name.drop node.name.length) node.vars).2

def retainLinks (h : Heap (Subtree ρ)) (current newSub : Nat) : Option (Heap (Subtree ρ)) := do
  let h ← changeNextAll h (some current) (some newSub)
  let h ← changePrevAll h (some newSub) (some current)
  let copy ← h.cells newSub
  changePrevAll h copy.next (some newSub)

def splitLoop : Nat → Heap (Subtree ρ) → Nat → Oid → Option (Heap (Subtree ρ) × Option Nat)
  | 0,_,_,_ => none
  | fuel+1,h,current,name => do
    let node ← h.cells current
    if snmpOidCompare name node.ending > 0 then some (h,none)
    else
      let newSub := h.fresh
      let h := h.alloc {node with start := name, vars := secondVariables node name}
      let h := h.put current {node with ending := name, vars := firstVariables node name}
      let h ←
        match node.children with
        | none => some h
        | some child =>
          let (h,children) ← splitLoop fuel h child name
          let copy ← h.cells newSub
          some (h.put newSub {copy with children := children})
      let h ← retainLinks h current newSub
      some (h,some newSub)

def netsnmpSubtreeSplit (h : Heap (Subtree ρ)) (current : Nat) (name : Oid) : Option (Heap (Subtree ρ) × Option Nat) :=
  splitLoop h.fresh h current name

def netsnmpRemoveSubtree (r : Registry ρ) (tree : Nat) : Option (Registry ρ) := do
  let node ← r.heap.cells tree
  let r ←
    match node.prev with
    | none => some (if r.first = some tree then {r with first := node.next} else r)
    | some p =>
      let other ← r.heap.cells p
      some {r with heap := r.heap.put p {other with next := node.next}}
  match node.next with
  | none => some r
  | some n =>
    let other ← r.heap.cells n
    some {r with heap := r.heap.put n {other with prev := node.prev}}

def netsnmpSubtreeUnload (r : Registry ρ) (sub : Nat) (prev : Option Nat) : Option (Registry ρ) := do
  let node ← r.heap.cells sub
  match prev with
  | some p =>
    let other ← r.heap.cells p
    some {r with heap := r.heap.put p {other with children := node.children}}
  | none =>
    let replacement := node.children
    let h ← changeNextAll r.heap node.prev (replacement.or node.next)
    let h ← changePrevAll h node.next (replacement.or node.prev)
    some ⟨h,if node.prev = none then replacement.or node.next else r.first⟩

end

section
variable {ρ : Type}

def linkChild (h : Heap (Subtree ρ)) (newSub : Nat) (prev next : Option Nat) : Option (Heap (Subtree ρ)) := do
  match prev with
  | some p =>
    let before ← h.cells p
    let h := h.put p {before with children := some newSub}
    let node ← h.cells newSub
    let h := h.put newSub {node with children := next}
    let h ← netsnmpSubtreeChangePrev h newSub before.prev
    netsnmpSubtreeChangeNext h newSub before.next
  | none =>
    let n ← next
    let node ← h.cells newSub
    let h := h.put newSub {node with children := next}
    let after ← h.cells n
    let h ← netsnmpSubtreeChangePrev h newSub after.prev
    let h ← netsnmpSubtreeChangeNext h newSub after.next
    let h ← changePrevAll h after.next (some newSub)
    changeNextAll h after.prev (some newSub)

def mergeChild (r : Registry ρ) (newSub tree1 : Nat) : Option (Registry ρ × Code) := do
  let h := r.heap
  let node ← h.cells newSub
  let (prev,next) ← skipWhile h (fun other => other.name.length > node.name.length) h.fresh none (some tree1)
  let (prev,next) ←
    skipWhile h (fun other => other.name.length = node.name.length ∧ other.priority < node.priority) h.fresh prev next
  let taken ←
    match next with
    | none => some false
    | some n =>
      let other ← h.cells n
      some (decide (other.name.length = node.name.length ∧ other.priority = node.priority))
  if taken then some (r,.duplicateRegistration)
  else
    let h ← linkChild h newSub prev next
    some ({r with heap := h},.registeredOk)

-- A subtree that starts where nothing is registered; a place in the list only without a following subtree.
def linkVirgin (r : Registry ρ) (newSub : Nat) (tree2 : Option Nat) : Option (Registry ρ × Option Nat) := do
  let node ← r.heap.cells newSub
  match tree2 with
  | some t =>
    let after ← r.heap.cells t
    let (h,_) ←
      if snmpOidCompare node.ending after.start > 0 then netsnmpSubtreeSplit r.heap newSub after.start else some (r.heap,none)
    let after ← h.cells t
    let h ← netsnmpSubtreeChangePrev h newSub after.prev
    let h ← netsnmpSubtreeChangePrev h t (some newSub)
    some ({r with heap := h},none)
  | none =>
    let prev ← netsnmpSubtreeFindPrev r node.start none
    let h ← netsnmpSubtreeChangePrev r.heap newSub prev
    let r ←
      match prev with
      | some p =>
        let h ← netsnmpSubtreeChangeNext h p (some newSub)
        some {r with heap := h}
      | none => some ⟨h,some newSub⟩
    let h ← netsnmpSubtreeChangeNext r.heap newSub none
    some ({r with heap := h},none)

def subtreeLoad : Nat → Registry ρ → Option Nat → Option (Registry ρ × Code)
  | _,r,none => some (r,.registeredOk)
  | 0,_,some _ => none
  | fuel+1,r,some newSub => do
    let node ← r.heap.cells newSub
    match ← netsnmpSubtreeFind r node.start none with
    | none =>
      let tree2 ← netsnmpSubtreeFindNext r node.start none
      let (r,new2) ← linkVirgin r newSub tree2
      subtreeLoad fuel r new2
    | some tree1 =>
      let tree ← r.heap.cells tree1
      let (h,tree1) ←
        if node.start ≠ tree.start then netsnmpSubtreeSplit r.heap tree1 node.start else some (r.heap,some tree1)
      match tree1 with
      | none => some ({r with heap := h},.registrationFailed)
      | some tree1 =>
        let tree ← h.cells tree1
        if snmpOidCompare node.ending tree.ending < 0 then
          let (h,_) ← netsnmpSubtreeSplit h tree1 node.ending
          mergeChild {r with heap := h} newSub tree1
        else if snmpOidCompare node.ending tree.ending = 0 then mergeChild {r with heap := h} newSub tree1
        else
          let (h,new2) ← netsnmpSubtreeSplit h newSub tree.ending
          let (r,res) ← subtreeLoad fuel {r with heap := h} (some newSub)
          if res ≠ .registeredOk then
            let new2 ← new2
            let r ← netsnmpRemoveSubtree r new2
            some ({r with heap := r.heap.free new2},res)
          else subtreeLoad fuel r new2

def raised (x : Nat) : Nat := (x+1)%2^64

-- The node that netsnmp_register_mib makes; the lengths are kept in unsigned chars.
def newSubtree (var : List Variable) (mibloc : Oid) (priority : Int) (info : ρ) : Subtree ρ where
  name := mibloc.take (mibloc.length%256)
  start := mibloc.take (mibloc.length%256)
  ending := (mibloc.dropLast++(mibloc.getLast?.map raised).toList).take (mibloc.length%256)
  vars := var
  priority := (priority%256).toNat
  next := none
  prev := none
  children := none
  oidOff := 0
  info := info

-- netsnmp_register_null_context, while the list of the context is set up
def registerNull (null : ρ) (r : Registry ρ) (root : Nat) : Option (Registry ρ) := do
  let newSub := r.heap.fresh
  let r := {r with heap := r.heap.alloc (newSubtree [] [root] 0 null)}
  let (r,res) ← subtreeLoad (r.heap.fresh+1) r (some newSub)
  some (if res = .registeredOk then r else {r with heap := r.heap.free newSub})

def netsnmpSubtreeLoad (null : ρ) (r : Registry ρ) (newSub : Option Nat) : Option (Registry ρ × Code) := do
  let r ←
    if r.first.isNone then
      let r ← registerNull null r 0
      let r ← registerNull null r 1
      registerNull null r 2
    else some r
  subtreeLoad (r.heap.fresh+1) r newSub

end

section
variable {ρ : Type}

def toInt (x : Int) : Int := (x+2^31)%2^32-2^31

def toOid (x : Int) : Nat := (x%2^64).toNat

def registered (name : Oid) (priority : Int) (node : Subtree ρ) : Bool := node.name = name ∧ (node.priority : Int) = priority

def unloadFollowing (name : Oid) (priority : Int) : Nat → Registry ρ → Option Nat → Option (Registry ρ)
  | _,r,none => some r
  | 0,_,some _ => none
  | fuel+1,r,some list => do
    let node ← r.heap.cells list
    let (prev,child) ← skipWhile r.heap (fun other => !registered name priority other) r.heap.fresh none (some list)
    match child with
    | none => some r
    | some child =>
      let r ← netsnmpSubtreeUnload r child prev
      unloadFollowing name priority fuel {r with heap := r.heap.free child} node.next

-- none inside if there is no such registration, and else the first node that was taken out.
def unregisterRound (r : Registry ρ) (name : Oid) (priority : Int) : Option (Option (Registry ρ × Nat)) := do
  match ← netsnmpSubtreeFind r name r.first with
  | none => some none
  | some list =>
    let (prev,child) ← skipWhile r.heap (fun other => !registered name priority other) r.heap.fresh none (some list)
    match child with
    | none => some none
    | some child =>
      let r ← netsnmpSubtreeUnload r child prev
      let myptr ← r.heap.cells child
      let r ← unloadFollowing name priority r.heap.fresh r myptr.next
      some (some (r,child))

-- The loop over a range; without one orig_subid_val is -1. Only the last node is freed.
def unregisterLoop (priority : Int) (position : Nat) (rangeUbound : Nat) (origSubidVal : Int) :
    Nat → Registry ρ → Oid → Option (Registry ρ × Oid × Code)
  | 0,_,_ => none
  | fuel+1,r,name => do
    match ← unregisterRound r name priority with
    | none => some (r,name,.noSuchRegistration)
    | some (r,myptr) =>
      let done := {r with heap := r.heap.free myptr}
      if origSubidVal = -1 then some (done,name,.unregisteredOk)
      else
        let value := raised (name.getD position 0)
        if value ≥ toOid (origSubidVal+rangeUbound) then some (done,name.set position (toOid origSubidVal),.unregisteredOk)
        else unregisterLoop priority position rangeUbound origSubidVal fuel r (name.set position value)

def unregisterMibContext (r : Registry ρ) (name : Oid) (priority rangeSubid : Int) (rangeUbound : Nat) :
    Option (Registry ρ × Oid × Code) :=
  let ranged := rangeSubid > 0 ∧ rangeSubid.toNat ≤ name.length
  unregisterLoop priority (rangeSubid.toNat-1) rangeUbound
    (if ranged then toInt (name.getD (rangeSubid.toNat-1) 0) else -1) (r.heap.fresh+1) r name

end

section
variable {ρ : Type}

def setSubid (name : Oid) (position value : Nat) : Option Oid :=
  if position < name.length then some (name.set position value) else none

def rangeCopy (node : Subtree ρ) (position value : Nat) (wholeLen : Bool) : Option (Subtree ρ) := do
  let name ← setSubid node.name position value
  let start ← setSubid node.start position value
  let ending ← setSubid node.ending position (if wholeLen then raised value else value)
  some {node with name := name, start := start, ending := ending}

def rangeLoop (null : ρ) (mibloc : Oid) (priority rangeSubid : Int) (rangeUbound subtree : Nat) :
    Nat → Int → Registry ρ → Option (Registry ρ × Code)
  | 0,_,r => some (r,.registeredOk)
  | rounds+1,i,r => do
    let node ← r.heap.cells subtree
    let copy ← rangeCopy node (rangeSubid.toNat-1) (toOid i) (rangeSubid.toNat = mibloc.length)
    let sub2 := r.heap.fresh
    let (r,res) ← netsnmpSubtreeLoad null {r with heap := r.heap.alloc copy} (some sub2)
    if res ≠ .registeredOk then
      let (r,_,_) ← unregisterMibContext r mibloc priority rangeSubid rangeUbound
      let r ← netsnmpRemoveSubtree r sub2
      some ({r with heap := r.heap.free sub2},res)
    else rangeLoop null mibloc priority rangeSubid rangeUbound subtree rounds (i+1) r

-- Without the lookup cache, the detached flag and the callbacks. A bound of INT_MAX makes the
-- loop over the range overflow.
def netsnmpRegisterMib (null : ρ) (r : Registry ρ) (var : List Variable) (mibloc : Oid) (priority rangeSubid : Int)
    (rangeUbound : Nat) (info : ρ) : Option (Registry ρ × Code) := do
  if mibloc = [] then none
  else
    let subtree := r.heap.fresh
    let (r,res) ←
      netsnmpSubtreeLoad null {r with heap := r.heap.alloc (newSubtree var mibloc priority info)} (some subtree)
    if res ≠ .registeredOk then some ({r with heap := r.heap.free subtree},res)
    else if rangeSubid = 0 then some (r,res)
    else if rangeSubid < 0 ∨ mibloc.length < rangeSubid.toNat then none
    else if toInt rangeUbound = 2147483647 then none
    else
      let i := toInt (raised (mibloc.getD (rangeSubid.toNat-1) 0))
      rangeLoop null mibloc priority rangeSubid rangeUbound subtree (toInt rangeUbound-i+1).toNat i r

def nullContext (null : ρ) : Option (Registry ρ) := do
  let r ← registerNull null ⟨⟨fun _ => none,0⟩,none⟩ 0
  let r ← registerNull null r 1
  registerNull null r 2

end

end NetSnmp.AgentRegistry
