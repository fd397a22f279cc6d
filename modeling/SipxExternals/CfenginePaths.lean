import Mathlib.Data.List.Basic

namespace Cfengine.Paths
open List

def cfBufsize : Nat := 4096
def cfBuffermargin : Nat := 128
def cfExpandsize : Nat := 2*cfBufsize
def cfMaxlinksize : Nat := 256

def isFileSep (c : Char) : Bool := c == '/'

def isspace (c : Char) : Bool := c == ' ' || 9 ≤ c.toNat && c.toNat ≤ 13

def chop (str : List Char) : List Char :=
  if cfExpandsize < str.length then str else (str.reverse.dropWhile isspace).reverse

def addSlash (str : List Char) : List Char :=
  if str = [] then ['/']
  else
    let sep := if '\\' ∈ str ∧ '/' ∉ str then '\\' else '/'
    if str.getLast?.any isFileSep then str else str++[sep]

def joinPath (path leaf : List Char) : Option (List Char) :=
  let path := addSlash (chop path)
  if cfBufsize-cfBuffermargin < path.length+leaf.length then none else some (path++leaf)

-- The last separator is looked for from the end; without one the answer is false.
def chopLastNode (str : List Char) : Option (List Char) :=
  match str.reverse.dropWhile (!isFileSep ·) with
  | [] => none
  | _ :: front => some (if front = [] then addSlash [] else front.reverse)

def compressNode (dest node : List Char) : Option (List Char) :=
  if node = ['.'] then some dest
  else if node = ['.','.'] then chopLastNode dest
  else joinPath (addSlash dest) node

def first (sp : List Char) : List Char := sp.takeWhile (!isFileSep ·)
def behind (sp : List Char) : List Char := sp.dropWhile (!isFileSep ·)

theorem behind_shorter (other : isFileSep c = false) (rest : List Char) : (behind (c :: rest)).length < (c :: rest).length := by
  rw [behind,dropWhile_cons_of_pos (by simp [other]),length_cons]
  exact Nat.lt_succ_of_le (dropWhile_sublist _).length_le

def compressLoop (dest : List Char) : List Char → Option (List Char)
  | [] => some dest
  | c :: rest =>
    if isFileSep c then compressLoop dest rest
    else if cfMaxlinksize+1 < (first (c :: rest)).length then none
    else (compressNode dest (first (c :: rest))).bind fun dest => compressLoop dest (behind (c :: rest))
termination_by sp => sp.length
decreasing_by
  · exact Nat.lt_succ_self _
  · exact behind_shorter (by simpa using ‹¬isFileSep c = true›) rest

def rootDirLength (src : List Char) : Nat := if src.head?.any isFileSep then 1 else 0

def compressPath (src : List Char) : Option (List Char) :=
  compressLoop (src.take (rootDirLength src)) (src.drop (rootDirLength src))

-- What is kept of the components of a path, and the path they make.
def push (kept : List (List Char)) (node : List Char) : List (List Char) :=
  if node = [] ∨ node = ['.'] then kept else if node = ['.','.'] then kept.dropLast else kept++[node]

def spelled (parts : List (List Char)) : List Char := parts.flatMap ('/' :: ·)

def absolute (kept : List (List Char)) : List Char := if kept = [] then ['/'] else spelled kept

def Component (node : List Char) : Prop := node.length ≤ 256 ∧ ∀ c ∈ node, isFileSep c = false

def Kept (node : List Char) : Prop := Component node ∧ node ≠ [] ∧ node ≠ ['.'] ∧ node ≠ ['.','.']

theorem push_kept (all : ∀ part ∈ kept, Kept part) (component : Component node) : ∀ part ∈ push kept node, Kept part := by
  intro part mem
  rw [push] at mem
  split at mem
  · exact all part mem
  rename_i here
  split at mem
  · exact all part (dropLast_subset kept mem)
  rename_i parent
  rcases mem_append.mp mem with old | new
  · exact all part old
  · rw [mem_singleton.mp new]
    exact ⟨component,mt .inl here,mt .inr here,parent⟩

theorem push_length (kept : List (List Char)) (node : List Char) :
    (spelled (push kept node)).length ≤ (spelled kept).length+(spelled [node]).length := by
  rw [push]
  split
  · omega
  split
  · rcases eq_nil_or_concat kept with rfl | ⟨front,last,rfl⟩
    · simp [spelled]
    · simp [spelled]
      omega
  · simp [spelled]

theorem chop_slash (front : List Char) : chop (front++['/']) = front++['/'] := by
  rw [chop]
  split
  · rfl
  · simp [isspace]

theorem addSlash_slash (front : List Char) : addSlash (front++['/']) = front++['/'] := by
  simp [addSlash,isFileSep]

theorem addSlash_absolute (all : ∀ part ∈ kept, Kept part) : addSlash (absolute kept) = spelled kept++['/'] := by
  rcases eq_nil_or_concat kept with rfl | ⟨front,last,rfl⟩
  · rfl
  obtain ⟨component,filled,_⟩ := all last (by simp)
  obtain ⟨start,c,rfl⟩ := (eq_nil_or_concat last).resolve_left filled
  have other := component.2 c (by simp)
  have shape : spelled (front.concat (start.concat c)) = (spelled front++ '/' :: start)++[c] := by simp [spelled]
  rw [absolute,if_neg (by simp),shape,addSlash,getLast?_concat]
  simp [other]

theorem chopLastNode_absolute (all : ∀ part ∈ kept, Kept part) : chopLastNode (absolute kept) = some (absolute kept.dropLast) := by
  rcases eq_nil_or_concat kept with rfl | ⟨front,last,rfl⟩
  · rfl
  have free : ∀ c ∈ last.reverse, (!isFileSep c) = true := by simpa using (all last (by simp)).1.2
  have shape : (absolute (front.concat last)).reverse.dropWhile (!isFileSep ·) = '/' :: (spelled front).reverse := by
    rw [absolute,if_neg (by simp),show spelled (front.concat last) = spelled front++ '/' :: last by simp [spelled],
      reverse_append,reverse_cons,append_assoc,dropWhile_append_of_pos free]
    rfl
  have empty : (spelled front).reverse = [] ↔ front = [] := by cases front <;> simp [spelled]
  rw [chopLastNode,shape]
  simp [empty,absolute,addSlash]

theorem compressNode_push (all : ∀ part ∈ kept, Kept part) (filled : node ≠ [])
    (room : (spelled kept).length+(spelled [node]).length ≤ 3968) :
    compressNode (absolute kept) node = some (absolute (push kept node)) := by
  simp only [compressNode,push,filled,false_or]
  split
  · rfl
  split
  · exact chopLastNode_absolute all
  · rw [joinPath,addSlash_absolute all,chop_slash,addSlash_slash,if_neg (by simp [cfBufsize,cfBuffermargin,spelled] at room ⊢; omega)]
    simp [absolute,spelled]

-- The loop with what is left of the path taken as components, each behind a slash.
theorem compressLoop_push (parts kept : List (List Char)) (components : ∀ part ∈ parts, Component part)
    (all : ∀ part ∈ kept, Kept part) (room : (spelled kept).length+(spelled parts).length ≤ 3968) :
    compressLoop (absolute kept) (spelled parts) = some (absolute (parts.foldl push kept)) ∧
      (∀ part ∈ parts.foldl push kept, Kept part) ∧
      (spelled (parts.foldl push kept)).length ≤ (spelled kept).length+(spelled parts).length := by
  induction parts generalizing kept with
  | nil =>
    rw [spelled,flatMap_nil,compressLoop]
    exact ⟨rfl,all,Nat.le_add_right _ _⟩
  | cons part parts ih =>
    obtain ⟨component,others⟩ := forall_mem_cons.mp components
    have shape : spelled (part :: parts) = spelled [part]++spelled parts := by simp [spelled]
    have grown := push_length kept part
    rw [shape,length_append] at room ⊢
    obtain ⟨looped,kept_all,bound⟩ := ih (push kept part) others (push_kept all component) (by omega)
    refine ⟨?_,kept_all,by rw [foldl_cons]; omega⟩
    rw [foldl_cons,← looped,spelled,flatMap_singleton,cons_append,compressLoop,if_pos (by decide)]
    cases part with
    | nil => rfl
    | cons c tail =>
      have free : ∀ d ∈ c :: tail, (!isFileSep d) = true := by simpa using component.2
      have ends : first (spelled parts) = [] ∧ behind (spelled parts) = spelled parts := by cases parts <;> exact ⟨rfl,rfl⟩
      have cut : first (c :: tail++spelled parts) = c :: tail ∧ behind (c :: tail++spelled parts) = spelled parts := by
        rw [first,behind,takeWhile_append_of_pos free,dropWhile_append_of_pos free]
        exact ⟨by rw [← first,ends.1,append_nil],ends.2⟩
      have size := component.1
      rw [cons_append] at cut ⊢
      rw [compressLoop,if_neg (by simpa using free c (.head _)),cut.1,cut.2,if_neg (by rw [cfMaxlinksize]; omega),
        compressNode_push all (cons_ne_nil _ _) (by omega)]
      rfl

theorem split_spelled (rest : List Char) : '/' :: rest = spelled (rest.splitOnP isFileSep) ∧
    ∀ part ∈ rest.splitOnP isFileSep, ∀ c ∈ part, isFileSep c = false := by
  induction rest with
  | nil => exact ⟨rfl,by simp⟩
  | cons c rest ih =>
    obtain ⟨part,parts,shape⟩ := exists_cons_of_ne_nil (splitOnP_ne_nil isFileSep rest)
    rw [splitOnP_cons_eq_if_modifyHead]
    split
    · rename_i sep
      rw [show c = '/' by simpa [isFileSep] using sep,ih.1]
      exact ⟨rfl,by simpa using ih.2⟩
    · rename_i other
      rw [shape] at ih ⊢
      simpa [spelled,other] using ih

theorem push_all (all : ∀ part ∈ parts, Kept part) (kept : List (List Char)) : parts.foldl push kept = kept++parts := by
  induction parts generalizing kept with
  | nil => simp
  | cons part parts ih =>
    obtain ⟨⟨_,filled,here,parent⟩,others⟩ := forall_mem_cons.mp all
    rw [foldl_cons,ih others,push]
    simp [filled,here,parent]

theorem compressPath_kept (components : ∀ part ∈ parts, Component part) (small : (spelled parts).length < 3900)
    (rooted : '/' :: rest = spelled parts) : compressPath ('/' :: rest) = some (absolute (parts.foldl push [])) ∧
      (∀ part ∈ parts.foldl push [], Kept part) ∧ (spelled (parts.foldl push [])).length ≤ (spelled parts).length := by
  obtain ⟨looped,all,bound⟩ := compressLoop_push parts [] components (by simp) (by simp [spelled] at small ⊢; omega)
  rw [← rooted,compressLoop,if_pos (by decide)] at looped
  exact ⟨looped,all,by simpa [spelled] using bound⟩

-- The lexical normal form: the components that are left when each .. has taken the one before
-- it. It is a path of which nothing is taken any more.
theorem compressPath_normal (rest : List Char) (short : ∀ part ∈ rest.splitOnP isFileSep, part.length ≤ 256)
    (small : ('/' :: rest).length < 3900) :
    compressPath ('/' :: rest) = some (absolute ((rest.splitOnP isFileSep).foldl push [])) ∧
      (∀ part ∈ (rest.splitOnP isFileSep).foldl push [], Kept part) ∧
      compressPath (absolute ((rest.splitOnP isFileSep).foldl push [])) =
        some (absolute ((rest.splitOnP isFileSep).foldl push [])) := by
  obtain ⟨rooted,free⟩ := split_spelled rest
  rw [rooted] at small
  obtain ⟨once,all,bound⟩ := compressPath_kept (fun part mem => ⟨short part mem,free part mem⟩) small rooted
  refine ⟨once,all,?_⟩
  generalize (rest.splitOnP isFileSep).foldl push [] = kept at *
  cases kept with
  | nil => simp [compressPath,absolute,rootDirLength,isFileSep,compressLoop]
  | cons part parts =>
    have twice := (compressPath_kept (fun part mem => (all part mem).1) (by omega) (show '/' :: (part++spelled parts) = _ from rfl)).1
    rw [push_all all] at twice
    exact twice

theorem compressPath_sample : compressPath "/a//b/./../c/".toList = some "/a/c".toList :=
  (compressPath_normal "a//b/./../c/".toList (by decide) (by decide)).1

end Cfengine.Paths
