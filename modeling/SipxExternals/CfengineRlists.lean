import Mathlib.Algebra.GroupWithZero.Nat
import Mathlib.Data.List.Flatten

namespace Cfengine.Rlists
open List

def quote (c : Char) : Bool := c == '\'' || c == '"'

-- The octets that the loop writes; i is moved on by four for a quote and by two for another character.
def escapeLoop (outSz : Int) : List Char → Int → List Char
  | [],_ => []
  | c :: rest,i =>
    if i < outSz-2 then
      if quote c then '\\' :: c :: escapeLoop outSz rest (i+3+1)
      else c :: escapeLoop outSz rest (i+1+1)
    else []

def escapeQuotes (s : List Char) (outSz : Int) : Option (List Char) :=
  if outSz < 0 then none else some (escapeLoop outSz s 0)

-- The size is passed on as an int. What is written is read up to the first null octet,
-- which lies outside where the buffer is full.
def rvalPrint (outside item : List Char) : Option (List Char) := do
  let bufferSize := item.length*2
  let written ← escapeQuotes item ((bufferSize : Int).bmod 4294967296)
  return if written.length < bufferSize then written else written++outside

def escaped (item : List Char) : List Char := item.flatMap fun c => if quote c then ['\\',c] else [c]

theorem escaped_length (item : List Char) : (escaped item).length ≤ item.length*2 := by
  induction item with
  | nil => exact Nat.le_refl _
  | cons c rest ih =>
    rw [escaped,flatMap_cons,length_append,length_cons]
    change _+(escaped rest).length ≤ _
    split
    · simp only [length_cons,length_nil]
      omega
    · simp only [length_cons,length_nil]
      omega

theorem escapeLoop_shorter (filled : item ≠ []) {outSz : Int} (i : Int) (size : outSz ≤ i+item.length*2) :
    (escapeLoop outSz item i).length < (escaped item).length := by
  induction item generalizing i with
  | nil => exact absurd rfl filled
  | cons c rest ih =>
    rw [escapeLoop,escaped,flatMap_cons]
    change _ < (_++escaped rest).length
    rw [length_cons] at size
    split
    · have more : rest ≠ [] := by
        rintro rfl
        rw [length_nil] at size
        omega
      split
      · have shorter := ih more (i+3+1) (by omega)
        simpa using shorter
      · have shorter := ih more (i+1+1) (by omega)
        simpa using shorter
    · split <;> simp

theorem rvalPrint_exact (outside item : List Char) :
    rvalPrint outside item = some (escaped item) ↔ item = [] ∧ outside = [] := by
  by_cases empty : item = []
  · subst empty
    simp [rvalPrint,escapeQuotes,escapeLoop,escaped]
  have narrow : ((item.length*2 : Nat) : Int).bmod 4294967296 ≤ 0+item.length*2 := by
    rw [Int.bmod_def]
    split <;> omega
  have shorter := escapeLoop_shorter empty 0 narrow
  have size := escaped_length item
  simp only [empty,false_and,iff_false,rvalPrint,escapeQuotes]
  intro printed
  split at printed
  · simp at printed
  · simp only [Option.bind_eq_bind,Option.bind_some] at printed
    rw [if_pos (by omega)] at printed
    rw [Option.some.inj printed] at shorter
    omega

theorem last_character_lost : rvalPrint [] ['a','b'] = some ['a'] := rfl

def cfMaxvarsize : Nat := 1024

def subStrnCopyChr (sep : Char) : Nat → List Char → List Char
  | 0,_ | _,[] => []
  | room+1,c :: rest =>
    if c = '\\' ∧ rest.head? = some sep then sep :: subStrnCopyChr sep room rest.tail
    else if c = sep then []
    else c :: subStrnCopyChr sep room rest

-- A node that is full has no null octet, and is read on into what stands behind it.
def splitNode (outside : List Char) (sep : Char) (text : List Char) : List Char :=
  let node := subStrnCopyChr sep cfMaxvarsize text
  if node.length < cfMaxvarsize then node else node++outside

def splitStringAsRList (outside : List Char) (sep : Char) : List Char → List (List Char)
  | [] => []
  | c :: rest => splitNode outside sep (c :: rest) ::
      splitStringAsRList outside sep (rest.drop (subStrnCopyChr sep cfMaxvarsize (c :: rest)).length)
  termination_by text => text.length
  decreasing_by simp only [length_drop,length_cons]; omega

def escapeSeparator (sep : Char) (item : List Char) : List Char := item.flatMap fun c => if c = sep then ['\\',sep] else [c]

def joined (sep : Char) : List (List Char) → List Char
  | [] => []
  | [last] => escapeSeparator sep last
  | item :: next :: rest => escapeSeparator sep item++sep :: joined sep (next :: rest)

theorem copy_escaped (plain : '\\' ∉ item) (other : sep ≠ '\\') (fits : item.length ≤ room) (stop : ∀ c ∈ more.head?, c = sep) :
    subStrnCopyChr sep room (escapeSeparator sep item++more) = item := by
  induction item generalizing room with
  | nil =>
    cases room with
    | zero => rfl
    | succ room =>
      cases more with
      | nil => rfl
      | cons c more => simp [escapeSeparator,subStrnCopyChr,stop c rfl,other]
  | cons c item ih =>
    obtain ⟨unescaped,rest⟩ := not_or.mp (mem_cons.not.mp plain)
    obtain ⟨room,rfl⟩ := Nat.exists_eq_add_of_le' (Nat.one_le_of_lt fits)
    have copied := ih rest (Nat.le_of_succ_le_succ fits)
    by_cases same : c = sep
    · subst same
      simpa [escapeSeparator,subStrnCopyChr] using copied
    · simpa [escapeSeparator,subStrnCopyChr,same,Ne.symm unescaped] using copied

theorem escapeSeparator_length : (escapeSeparator sep item).length = item.length+item.count sep := by
  induction item with
  | nil => rfl
  | cons c item ih =>
    rw [escapeSeparator,flatMap_cons,length_append]
    change _+(escapeSeparator sep item).length = _
    by_cases same : c = sep <;> simp [same,ih] <;> omega

theorem joined_length (sep : Char) (some : items ≠ []) : (items.map fun item => item.length+1).sum ≤ (joined sep items).length+1 := by
  induction items with
  | nil => exact absurd rfl some
  | cons item rest ih =>
    cases rest with
    | nil => simp [joined,escapeSeparator_length]
    | cons next rest =>
      have longer := ih (by simp)
      rw [map_cons,sum_cons,joined,length_append,length_cons,escapeSeparator_length]
      omega

theorem split_length (outside : List Char) (sep : Char) (text : List Char) :
    text.length ≤ ((splitStringAsRList outside sep text).map fun item => item.length+1).sum := by
  induction text using splitStringAsRList.induct sep with
  | case1 => simp
  | case2 c rest ih =>
    have node : (subStrnCopyChr sep cfMaxvarsize (c :: rest)).length ≤ (splitNode outside sep (c :: rest)).length := by
      rw [splitNode]
      split <;> simp
    rw [length_drop] at ih
    rw [splitStringAsRList,map_cons,sum_cons,length_cons]
    omega

theorem split_escaped (outside : List Char) (filled : item ≠ []) (plain : '\\' ∉ item) (short : item.length < cfMaxvarsize) (other : sep ≠ '\\')
    (stop : ∀ c ∈ more.head?, c = sep) : splitStringAsRList outside sep (escapeSeparator sep item++more) =
      item :: splitStringAsRList outside sep ((escapeSeparator sep item++more).drop (item.length+1)) := by
  have copied := copy_escaped plain other (Nat.le_of_lt short) stop
  cases text : escapeSeparator sep item++more with rw [text] at copied
  | nil => simp [cfMaxvarsize,subStrnCopyChr,filled.symm] at copied
  | cons c rest => rw [splitStringAsRList,splitNode,copied,if_pos short,drop_succ_cons]

theorem split_exact (outside : List Char) (other : sep ≠ '\\') (items : List (List Char)) (some : items ≠ [])
    (proper : ∀ item ∈ items, item ≠ [] ∧ '\\' ∉ item ∧ item.length < cfMaxvarsize) :
    splitStringAsRList outside sep (joined sep items) = items ↔
      (∀ item ∈ items.dropLast, sep ∉ item) ∧ ∀ item ∈ items.getLast?, item.count sep ≤ 1 := by
  induction items with
  | nil => exact absurd rfl some
  | cons item rest ih =>
    obtain ⟨⟨filled,plain,short⟩,others⟩ := forall_mem_cons.mp proper
    cases rest with
    | nil =>
      have split := split_escaped outside filled plain short other (show ∀ c ∈ [].head?, c = sep by simp)
      have empty : ∀ text, splitStringAsRList outside sep text = [] ↔ text = [] := by
        intro text
        cases text <;> simp [splitStringAsRList]
      rw [append_nil] at split
      rw [joined,split,cons_inj_right,empty,drop_eq_nil_iff,escapeSeparator_length]
      simp
    | cons next rest =>
      rw [joined,split_escaped outside filled plain short other (by simp),cons_inj_right]
      by_cases present : sep ∈ item
      · refine iff_of_false (fun same => ?_) fun clean => clean.1 item (by simp) present
        have once := count_pos_iff.mpr present
        have bound := split_length outside sep ((escapeSeparator sep item++sep :: joined sep (next :: rest)).drop (item.length+1))
        have longer := joined_length sep (cons_ne_nil next rest)
        rw [same,length_drop,length_append,length_cons,escapeSeparator_length] at bound
        rw [drop_left' (by rw [escapeSeparator_length]; omega),splitStringAsRList] at same
        have first : splitNode outside sep (sep :: joined sep (next :: rest)) = [] := by
          simp [splitNode,cfMaxvarsize,subStrnCopyChr,other]
        exact (others next (.head _)).1 ((cons.inj same).1.symm.trans first)
      · rw [append_cons,drop_left' (by simp [escapeSeparator_length,count_eq_zero.mpr present]),ih (by simp) others]
        simp [present]

theorem split_exact_single : splitStringAsRList [] ',' ['a','\\',','] = [['a',',']] :=
  (split_exact [] (by decide) [['a',',']] (by decide) (by decide)).mpr (by decide)

theorem separator_lost : splitStringAsRList [] ',' (joined ',' [['a',','],['b']]) = [['a',','],[],['b']] := by
  simp [splitStringAsRList,splitNode,subStrnCopyChr,joined,escapeSeparator,cfMaxvarsize]

end Cfengine.Rlists
