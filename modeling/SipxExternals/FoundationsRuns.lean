import Mathlib.Logic.Relation

namespace Foundations.Runs

section
variable (step : σ → Except ε σ) (final : σ → Bool)

def Turn (s t : σ) : Prop := final s = false ∧ step s = .ok t

-- The machine as an executable loop: no result means that the turns allowed
-- were not enough.
def run : Nat → σ → Option (Except ε σ)
  | 0,_ => none
  | turns+1,s => if final s then some (.ok s) else
      match step s with
      | .error fault => some (.error fault)
      | .ok t => run turns t

end

variable {step : σ → Except ε σ} {final : σ → Bool}

theorem run_final (ended : final s = true) : run step final (turns+1) s = some (.ok s) := by
  simp [run,ended]

theorem run_turn (turn : Turn step final s t) : run step final (turns+1) s = run step final turns t := by
  simp [run,turn.1,turn.2]

theorem run_failed (going : final s = false) (failed : step s = .error fault) :
    run step final (turns+1) s = some (.error fault) := by
  simp [run,going,failed]

theorem run_inverted (going : final s = false) (returned : run step final turns s = some (.ok u)) :
    ∃ left t, turns = left+1 ∧ step s = .ok t ∧ run step final left t = some (.ok u) := by
  cases turns with
  | zero => cases returned
  | succ left =>
    cases stepped : step s with
    | error fault =>
      rw [run_failed going stepped] at returned
      cases returned
    | ok t =>
      rw [run_turn ⟨going,stepped⟩] at returned
      exact ⟨left,t,rfl,rfl,returned⟩

theorem run_reached (returned : run step final turns s = some (.ok t)) :
    Relation.ReflTransGen (Turn step final) s t ∧ final t = true := by
  induction turns generalizing s with
  | zero => cases returned
  | succ turns ih =>
    cases ended : final s with
    | true =>
      rw [run_final ended] at returned
      cases returned
      exact ⟨.refl,ended⟩
    | false =>
      obtain ⟨left,u,same,stepped,ran⟩ := run_inverted ended returned
      cases same
      obtain ⟨reached,last⟩ := ih ran
      exact ⟨.head ⟨ended,stepped⟩ reached,last⟩

theorem run_more (returned : run step final turns s = some result) (more : turns ≤ enough) :
    run step final enough s = some result := by
  induction turns generalizing s enough with
  | zero => cases returned
  | succ turns ih =>
    obtain ⟨left,rfl⟩ : ∃ left, enough = left+1 := ⟨enough-1,by omega⟩
    cases ended : final s with
    | true =>
      rw [run_final ended] at returned
      rw [run_final ended,returned]
    | false =>
      cases stepped : step s with
      | error fault =>
        rw [run_failed ended stepped] at returned
        rw [run_failed ended stepped,returned]
      | ok t =>
        rw [run_turn ⟨ended,stepped⟩] at returned
        rw [run_turn ⟨ended,stepped⟩]
        exact ih returned (by omega)

theorem run_agrees (first : run step final turns s = some result)
    (second : run step final others s = some other) : result = other := by
  have left := run_more first (Nat.le_max_left turns others)
  have right := run_more second (Nat.le_max_right turns others)
  exact Option.some.inj (left.symm.trans right)

theorem run_before (turned : Relation.ReflTransGen (Turn step final) s t)
    (returned : run step final turns t = some result) :
    ∃ enough, run step final enough s = some result := by
  induction turned using Relation.ReflTransGen.head_induction_on with
  | refl => exact ⟨turns,returned⟩
  | head turn _ ih =>
    obtain ⟨enough,ran⟩ := ih
    exact ⟨enough+1,by rw [run_turn turn,ran]⟩

-- A machine whose turns all lower a measure returns.
theorem run_returns {measure : σ → Nat}
    (lowers : ∀ t u, Relation.ReflTransGen (Turn step final) s t → Turn step final t u → measure u < measure t) :
    ∃ result, run step final (measure s+1) s = some result := by
  suffices general : ∀ bound t, Relation.ReflTransGen (Turn step final) s t → measure t ≤ bound →
      ∃ result, run step final (bound+1) t = some result from
      general (measure s) s .refl (Nat.le_refl _)
  intro bound
  induction bound with
  | zero =>
    intro t reached low
    cases ended : final t with
    | true => exact ⟨_,run_final ended⟩
    | false =>
      cases stepped : step t with
      | error fault => exact ⟨_,run_failed ended stepped⟩
      | ok u =>
        have lower := lowers t u reached ⟨ended,stepped⟩
        omega
  | succ bound ih =>
    intro t reached low
    cases ended : final t with
    | true => exact ⟨_,run_final ended⟩
    | false =>
      cases stepped : step t with
      | error fault => exact ⟨_,run_failed ended stepped⟩
      | ok u =>
        have turn : Turn step final t u := ⟨ended,stepped⟩
        have lower := lowers t u reached turn
        obtain ⟨result,ran⟩ := ih u (reached.tail turn) (by omega)
        exact ⟨result,by rw [run_turn turn,ran]⟩

section
variable {inner : τ → Except δ τ} {closed : τ → Bool}

theorem run_view (view : σ → τ) (ends : ∀ s, final s = closed (view s))
    (steps : ∀ s, (step s).toOption.map view = (inner (view s)).toOption) (turns : Nat) (s : σ) :
    (run step final turns s).map (fun result => result.toOption.map view) =
      (run inner closed turns (view s)).map Except.toOption := by
  induction turns generalizing s with
  | zero => rfl
  | succ turns ih =>
    have same := steps s
    simp only [run,ends s]
    cases closed (view s) with
    | true => rfl
    | false =>
      cases stepped : step s with
      | error fault =>
        rw [stepped] at same
        cases stepped' : inner (view s) with
        | error other => rfl
        | ok t => rw [stepped'] at same; cases same
      | ok t =>
        rw [stepped] at same
        cases stepped' : inner (view s) with
        | error other => rw [stepped'] at same; cases same
        | ok u =>
          rw [stepped'] at same
          have viewed : view t = u := Option.some.inj same
          simpa [viewed] using ih t

end

end Foundations.Runs
