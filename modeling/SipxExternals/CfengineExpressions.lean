import Mathlib.Data.List.Basic
import SipxExternals.FoundationsPassages

namespace Cfengine.Expressions

-- What has been parsed, and the position that parsing has come to. Positions are far
-- from the end of int.
structure Parse (τ : Type) where
  result : Option τ
  position : Nat
  deriving DecidableEq

inductive StringExpression where
  | concat (lhs rhs : StringExpression)
  | literal (literal : List Char)
  | varref (name : StringExpression)
  deriving DecidableEq

abbrev StringParseResult := Parse StringExpression

def validTokenCharacter (c : Char) : Bool :=
  decide ('a' ≤ c ∧ c ≤ 'z') || decide ('A' ≤ c ∧ c ≤ 'Z') || decide ('0' ≤ c ∧ c ≤ '9') ||
    (c == '_' || c == '[' || c == ']')

def tokenLoop (expr : List Char) (stop : Nat) : Nat → Nat → Nat
  | 0,endlit => endlit
  | left+1,endlit =>
    if endlit < stop ∧ (expr[endlit]?.map validTokenCharacter).getD false = true then
      tokenLoop expr stop left (endlit+1)
    else endlit

def parseToken (expr : List Char) (start stop : Nat) : StringParseResult :=
  let endlit := tokenLoop expr stop (stop-start) start
  if endlit > start then ⟨some (.literal ((expr.drop start).take (endlit-start))),endlit⟩
  else ⟨none,endlit⟩

-- Each call takes one from the fuel; no result means that it is out.
mutual
def parseQname : Nat → List Char → Nat → Nat → Option StringParseResult
  | 0,_,_,_ => none
  | fuel+1,expr,start,stop => do
    let lhs ← parseStringExpression fuel expr start stop
    match lhs.result with
    | none => return lhs
    | some left =>
      if lhs.position = stop ∨ expr[lhs.position]? ≠ some '.' then return lhs
      else
        let rhs ← parseStringExpression fuel expr (lhs.position+1) stop
        match rhs.result with
        | none => return rhs
        | some right => return ⟨some (.concat left (.concat (.literal ['.']) right)),rhs.position⟩

def parseVarRef : Nat → List Char → Nat → Nat → Option StringParseResult
  | 0,_,_,_ => none
  | fuel+1,expr,start,stop =>
    if start+1 < stop ∧ expr[start]? = some '$' then
      if expr[start+1]? = some '(' ∨ expr[start+1]? = some '{' then do
        let closingBracket := if expr[start+1]? = some '(' then ')' else '}'
        let res ← parseQname fuel expr (start+2) stop
        match res.result with
        | none => return res
        | some name =>
          if res.position < stop ∧ expr[res.position]? = some closingBracket then
            return ⟨some (.varref name),res.position+1⟩
          else return ⟨none,res.position⟩
      else some ⟨none,start+1⟩
    else some ⟨none,start⟩

def parseTerm : Nat → List Char → Nat → Nat → Option StringParseResult
  | 0,_,_,_ => none
  | fuel+1,expr,start,stop =>
    if (parseToken expr start stop).result.isSome then some (parseToken expr start stop)
    else parseVarRef fuel expr start stop

def parseStringExpression : Nat → List Char → Nat → Nat → Option StringParseResult
  | 0,_,_,_ => none
  | fuel+1,expr,start,stop => do
    let lhs ← parseTerm fuel expr start stop
    match lhs.result with
    | none => return lhs
    | some left =>
      let rhs ← parseStringExpression fuel expr lhs.position stop
      match rhs.result with
      | none => return lhs
      | some right => return ⟨some (.concat left right),rhs.position⟩
end

def evalStringExpression (evalfn : List Char → Option (List Char)) : StringExpression → Option (List Char)
  | .concat lhs rhs => do
    let left ← evalStringExpression evalfn lhs
    let right ← evalStringExpression evalfn rhs
    return left++right
  | .literal literal => some literal
  | .varref name => do
    let name ← evalStringExpression evalfn name
    evalfn name

inductive Expression where
  | or (lhs rhs : Expression)
  | and (lhs rhs : Expression)
  | not (arg : Expression)
  | eval (name : StringExpression)
  deriving DecidableEq

abbrev ParseResult := Parse Expression

def nameFuel (start stop : Nat) : Nat := 2*(stop-start)+4

mutual
def parsePrimary : Nat → List Char → Nat → Nat → Option ParseResult
  | 0,_,_,_ => none
  | fuel+1,expr,start,stop =>
    if start < stop ∧ expr[start]? = some '(' then do
      let res ← parseExpression fuel expr (start+1) stop
      match res.result with
      | none => return res
      | some inner =>
        if res.position < stop ∧ expr[res.position]? = some ')' then return ⟨some inner,res.position+1⟩
        else return ⟨none,res.position⟩
    else do
      let strres ← parseStringExpression (nameFuel start stop) expr start stop
      match strres.result with
      | none => return ⟨none,strres.position⟩
      | some name => return ⟨some (.eval name),strres.position⟩

def parseNotExpression : Nat → List Char → Nat → Nat → Option ParseResult
  | 0,_,_,_ => none
  | fuel+1,expr,start,stop =>
    if start < stop ∧ expr[start]? = some '!' then do
      let primres ← parsePrimary fuel expr (start+1) stop
      match primres.result with
      | none => return primres
      | some arg => return ⟨some (.not arg),primres.position⟩
    else parsePrimary fuel expr start stop

def parseAndExpression : Nat → List Char → Nat → Nat → Option ParseResult
  | 0,_,_,_ => none
  | fuel+1,expr,start,stop => do
    let lhs ← parseNotExpression fuel expr start stop
    match lhs.result with
    | none => return lhs
    | some left =>
      if lhs.position = stop ∨ (expr[lhs.position]? ≠ some '.' ∧ expr[lhs.position]? ≠ some '&') then
        return lhs
      else
        let rhs ← parseAndExpression fuel expr (lhs.position+1) stop
        match rhs.result with
        | none => return rhs
        | some right => return ⟨some (.and left right),rhs.position⟩

def parseExpression : Nat → List Char → Nat → Nat → Option ParseResult
  | 0,_,_,_ => none
  | fuel+1,expr,start,stop => do
    let lhs ← parseAndExpression fuel expr start stop
    match lhs.result with
    | none => return lhs
    | some left =>
      if lhs.position = stop ∨ expr[lhs.position]? ≠ some '|' then return lhs
      else
        -- the second '|' in 'lhs||rhs'
        let position :=
          if lhs.position+1 < stop ∧ expr[lhs.position+1]? = some '|' then lhs.position+1 else lhs.position
        let rhs ← parseExpression fuel expr (position+1) stop
        match rhs.result with
        | none => return rhs
        | some right => return ⟨some (.or left right),rhs.position⟩
end

def parse (text : List Char) : Option ParseResult := parseExpression (4*text.length+8) text 0 text.length

inductive ExpressionValue where
  | error | no | yes
  deriving DecidableEq

def ExpressionValue.ofBool (value : Bool) : ExpressionValue := if value then .yes else .no

def evalExpression (nameevalfn : List Char → ExpressionValue) (varrefevalfn : List Char → Option (List Char)) :
    Expression → ExpressionValue
  | .or lhs rhs =>
    match evalExpression nameevalfn varrefevalfn lhs with
    | .error => .error
    | left =>
      match evalExpression nameevalfn varrefevalfn rhs with
      | .error => .error
      | right => .ofBool (left == .yes || right == .yes)
  | .and lhs rhs =>
    match evalExpression nameevalfn varrefevalfn lhs with
    | .error => .error
    | left =>
      match evalExpression nameevalfn varrefevalfn rhs with
      | .error => .error
      | right => .ofBool (left == .yes && right == .yes)
  | .not arg =>
    match evalExpression nameevalfn varrefevalfn arg with
    | .error => .error
    | value => .ofBool (value != .yes)
  | .eval name =>
    match evalStringExpression varrefevalfn name with
    | none => .error
    | some name => nameevalfn name

open Foundations.Passages List

def Unnamed (expr : List Char) (position : Nat) : Prop :=
  ∀ c, expr[position]? = some c → validTokenCharacter c = false

def Named (name : List Char) : Prop := ∀ c ∈ name, validTokenCharacter c = true

section
variable {expr name : List Char} {start position endlit : Nat}

theorem tokenLoop_reads (left endlit : Nat) (inside : left+endlit = expr.length) :
    ∃ name, Spells expr endlit (tokenLoop expr expr.length left endlit) name ∧ Named name ∧
      Unnamed expr (tokenLoop expr expr.length left endlit) := by
  induction left generalizing endlit with
  | zero =>
    refine ⟨[],⟨rfl,by simp only [tokenLoop]; omega⟩,by simp [Named],?_⟩
    intro c found
    have below := (List.getElem?_eq_some_iff.mp found).1
    simp only [tokenLoop] at below
    omega
  | succ left ih =>
    rw [tokenLoop]
    have below : endlit < expr.length := by omega
    have here : expr[endlit]? = some expr[endlit] := getElem?_eq_getElem below
    cases valid : validTokenCharacter expr[endlit] with
    | false =>
      rw [if_neg (by simp [here,valid])]
      refine ⟨[],⟨rfl,by omega⟩,by simp [Named],?_⟩
      intro c found
      rw [here] at found
      cases found
      exact valid
    | true =>
      rw [if_pos ⟨below,by simp [here,valid]⟩]
      obtain ⟨name,spells,named,ends⟩ := ih (endlit+1) (by omega)
      refine ⟨expr[endlit] :: name,⟨here,spells⟩,?_,ends⟩
      exact forall_mem_cons.mpr ⟨valid,named⟩

theorem tokenLoop_exact (left : Nat) (inside : left+endlit = expr.length) (spells : Spells expr endlit position name)
    (named : Named name) (ends : Unnamed expr position) :
    tokenLoop expr expr.length left endlit = position := by
  induction name generalizing endlit left with
  | nil =>
    obtain ⟨rfl,_⟩ := spells
    cases left with
    | zero => rfl
    | succ left =>
      rw [tokenLoop,if_neg]
      rintro ⟨below,valid⟩
      have here : expr[endlit]? = some expr[endlit] := getElem?_eq_getElem below
      simp [here,ends _ here] at valid
  | cons c name ih =>
    obtain ⟨here,rest⟩ := spells
    have below := (List.getElem?_eq_some_iff.mp here).1
    obtain ⟨left,rfl⟩ : ∃ fewer, left = fewer+1 := ⟨left-1,by omega⟩
    rw [tokenLoop,if_pos ⟨below,by simp [here,named c (.head _ ..)]⟩]
    exact ih left (by omega) rest (forall_mem_cons.mp named).2

theorem parseToken_exact (spells : Spells expr start position name) (filled : name ≠ []) (named : Named name)
    (ends : Unnamed expr position) : parseToken expr start expr.length = ⟨some (.literal name),position⟩ := by
  have length := spells_length spells
  have below := spells_le spells
  have long := length_pos_of_ne_nil filled
  have loop := tokenLoop_exact (expr.length-start) (by omega) spells named ends
  unfold parseToken
  simp only [loop]
  rw [if_pos (by omega),spells_slice spells]

theorem parseToken_fails (inside : start ≤ expr.length) (ends : Unnamed expr start) :
    parseToken expr start expr.length = ⟨none,start⟩ := by
  have nothing : Spells expr start start [] := ⟨rfl,inside⟩
  have loop := tokenLoop_exact (expr.length-start) (by omega) nothing (by simp [Named]) ends
  unfold parseToken
  simp [loop]

theorem parseToken_reads (inside : start ≤ expr.length) :
    ∃ name position, Spells expr start position name ∧ Named name ∧ Unnamed expr position ∧
      parseToken expr start expr.length = ⟨if name = [] then none else some (.literal name),position⟩ := by
  obtain ⟨name,spells,named,ends⟩ := tokenLoop_reads (expr.length-start) start (show _ = expr.length by omega)
  refine ⟨name,_,spells,named,ends,?_⟩
  by_cases empty : name = []
  · subst empty
    rw [if_pos rfl,← spells.1]
    exact parseToken_fails inside (spells.1 ▸ ends)
  · rw [if_neg empty]
    exact parseToken_exact spells empty named ends

end

section
variable {expr : List Char} {start : Nat}

theorem parseTerm_plain (plain : '$' ∉ expr) (inside : start ≤ expr.length) :
    parseTerm (fuel+2) expr start expr.length = some (parseToken expr start expr.length) := by
  rw [parseTerm]
  split
  · rfl
  rename_i failed
  obtain ⟨name,position,spells,_,_,parsed⟩ := parseToken_reads inside
  rw [parseVarRef,if_neg]
  · cases name with
    | nil => rw [parsed,← spells.1,if_pos rfl]
    | cons c name => simp [parsed] at failed
  · intro begins
    exact plain (mem_of_getElem? begins.2)

theorem parseStringExpression_plain (plain : '$' ∉ expr) (inside : start ≤ expr.length) :
    parseStringExpression (fuel+4) expr start expr.length = some (parseToken expr start expr.length) := by
  obtain ⟨name,position,spells,_,ends,parsed⟩ := parseToken_reads inside
  rw [parseStringExpression,parseTerm_plain plain inside,parsed]
  by_cases empty : name = []
  · simp [empty]
  have after := parseToken_fails (spells_le spells) ends
  have rest : parseStringExpression (fuel+3) expr position expr.length = some ⟨none,position⟩ := by
    rw [parseStringExpression,parseTerm_plain plain (spells_le spells),after]
    rfl
  simp [empty,rest]

end

end Cfengine.Expressions
