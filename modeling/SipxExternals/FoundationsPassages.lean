import Mathlib.Data.List.Basic

namespace Foundations.Passages

-- `part` stands in `whole` from `start` to `stop`.
def Spells (whole : List α) : Nat → Nat → List α → Prop
  | start,stop,[] => start = stop ∧ stop ≤ whole.length
  | start,stop,c :: part => whole[start]? = some c ∧ Spells whole (start+1) stop part

variable {whole part left right : List α} {start middle stop : Nat}

theorem spells_length (spells : Spells whole start stop part) : stop = start+part.length := by
  induction part generalizing start with
  | nil => exact spells.1.symm
  | cons c part ih =>
    have rest := ih spells.2
    rw [rest,List.length_cons]
    omega

theorem spells_le (spells : Spells whole start stop part) : stop ≤ whole.length := by
  induction part generalizing start with
  | nil => exact spells.2
  | cons c part ih => exact ih spells.2

theorem spells_join (first : Spells whole start middle left) (second : Spells whole middle stop right) :
    Spells whole start stop (left++right) := by
  induction left generalizing start with
  | nil =>
    obtain ⟨rfl,_⟩ := first
    exact second
  | cons c left ih => exact ⟨first.1,ih first.2⟩

theorem spells_split (spells : Spells whole start stop (left++right)) :
    ∃ middle, Spells whole start middle left ∧ Spells whole middle stop right := by
  induction left generalizing start with
  | nil =>
    have length := spells_length spells
    have below := spells_le spells
    exact ⟨start,⟨rfl,by omega⟩,spells⟩
  | cons c left ih =>
    obtain ⟨middle,first,second⟩ := ih spells.2
    exact ⟨middle,⟨spells.1,first⟩,second⟩

theorem spells_cons (here : whole[start]? = some c) (rest : Spells whole (start+1) stop part) :
    Spells whole start stop (c :: part) := ⟨here,rest⟩

theorem spells_one (here : whole[start]? = some c) : Spells whole start (start+1) [c] :=
  ⟨here,rfl,(List.getElem?_eq_some_iff.mp here).1⟩

theorem spells_drop (spells : Spells whole start stop part) : whole.drop start = part++whole.drop stop := by
  induction part generalizing start with
  | nil =>
    obtain ⟨rfl,_⟩ := spells
    rfl
  | cons c part ih =>
    obtain ⟨inside,same⟩ := List.getElem?_eq_some_iff.mp spells.1
    rw [List.drop_eq_getElem_cons inside,same,ih spells.2]
    rfl

theorem spells_slice (spells : Spells whole start stop part) : (whole.drop start).take (stop-start) = part := by
  have length := spells_length spells
  rw [spells_drop spells,show stop-start = part.length by omega,List.take_left]

theorem spells_self (whole : List α) : Spells whole 0 whole.length whole := by
  -- The induction moves the front of the rest behind what precedes it.
  have general : ∀ before rest : List α, Spells (before++rest) before.length (before++rest).length rest := by
    intro before rest
    induction rest generalizing before with
    | nil => exact ⟨by simp,Nat.le_refl _⟩
    | cons c rest ih =>
      refine ⟨by simp,?_⟩
      simpa using ih (before++[c])
  exact general [] whole

theorem spells_whole (spells : Spells whole 0 whole.length part) : part = whole := by
  have drop := spells_drop spells
  simpa using drop.symm

end Foundations.Passages
