import Mathlib.Data.List.Basic

namespace Foundations

-- What a program may ask of its surroundings, with the type of each answer.
structure Interface where
  Request : Type
  Answer : Request → Type

-- A deterministic program that asks. Being a tree, it cannot act on its
-- surroundings without the request being on record.
inductive Interaction (I : Interface) (ε α : Type) where
  | done (value : α)
  | fail (fault : ε)
  | ask (request : I.Request) (next : I.Answer request → Interaction I ε α)

abbrev Handler (I : Interface) := (request : I.Request) → I.Answer request

namespace Interaction
variable {I : Interface} {ε δ α β : Type} {handler : Handler I} {allowed : I.Request → Prop}

def bind : Interaction I ε α → (α → Interaction I ε β) → Interaction I ε β
  | .done value,follow => follow value
  | .fail fault,_ => .fail fault
  | .ask request next,follow => .ask request fun answer => (next answer).bind follow

instance : Monad (Interaction I ε) where
  pure := .done
  bind := Interaction.bind

def perform (request : I.Request) : Interaction I ε (I.Answer request) := .ask request .done

-- The caller sees the outcome of a part whose failure does not end the whole.
def attempt : Interaction I ε α → Interaction I δ (Except ε α)
  | .done value => .done (.ok value)
  | .fail fault => .done (.error fault)
  | .ask request next => .ask request fun answer => (next answer).attempt

def failWith (fault : δ) : Interaction I ε α → Interaction I δ α
  | .done value => .done value
  | .fail _ => .fail fault
  | .ask request next => .ask request fun answer => (next answer).failWith fault

def run : Interaction I ε α → Handler I → Except ε α
  | .done value,_ => .ok value
  | .fail fault,_ => .error fault
  | .ask request next,handler => (next (handler request)).run handler

def asked : Interaction I ε α → Handler I → List I.Request
  | .done _,_ => []
  | .fail _,_ => []
  | .ask request next,handler => request :: (next (handler request)).asked handler

def Each (allowed : I.Request → Prop) (part : Interaction I ε α) (handler : Handler I) : Prop :=
  ∀ request ∈ part.asked handler, allowed request

@[simp] theorem run_done : (Interaction.done value : Interaction I ε α).run handler = .ok value := rfl
@[simp] theorem run_pure : (pure value : Interaction I ε α).run handler = .ok value := rfl
@[simp] theorem run_fail : (Interaction.fail fault : Interaction I ε α).run handler = .error fault := rfl

theorem run_bind (first : Interaction I ε α) (handler : Handler I) :
    (first >>= follow).run handler = (first.run handler).bind fun value => (follow value).run handler := by
  change (Interaction.bind first follow).run handler = _
  induction first with
  | done value | fail fault => rfl
  | ask request next ih => exact ih (handler request)

@[simp] theorem run_bind_perform :
    (perform request >>= follow).run handler = (follow (handler request)).run handler := rfl

theorem run_bind_ok (follow : α → Interaction I ε β) (found : first.run handler = .ok value) :
    (first >>= follow).run handler = (follow value).run handler := by
  rw [run_bind,found]; rfl

theorem run_bind_error (follow : α → Interaction I ε β)
    (found : first.run handler = .error fault) : (first >>= follow).run handler = .error fault := by
  rw [run_bind,found]; rfl

theorem run_bind_eq_ok {follow : α → Interaction I ε β} : (first >>= follow).run handler = .ok result ↔
      ∃ value, first.run handler = .ok value ∧ (follow value).run handler = .ok result := by
  rw [run_bind]
  cases found : first.run handler with
  | error fault | ok value => simp [Except.bind]

@[simp] theorem run_attempt (part : Interaction I ε α) (handler : Handler I) :
    (part.attempt : Interaction I δ (Except ε α)).run handler = .ok (part.run handler) := by
  induction part with
  | done value | fail fault => rfl
  | ask request next ih => exact ih (handler request)

theorem run_failWith_ok {part : Interaction I ε α} :
    (part.failWith fault).run handler = .ok value ↔ part.run handler = .ok value := by
  induction part with
  | done value | fail fault => simp [failWith]
  | ask request next ih => exact ih (handler request)

theorem run_agrees {part : Interaction I ε α} (same : ∀ request ∈ part.asked handler, handler request = other request) :
    part.run other = part.run handler := by
  induction part with
  | done value | fail fault => rfl
  | ask request next ih =>
    rw [run,run,← same request (.head _)]
    exact ih _ fun later mem => same later (.tail _ mem)

theorem asked_bind (first : Interaction I ε α) (handler : Handler I) :
    (first >>= follow).asked handler = first.asked handler ++
      match first.run handler with
      | .ok value => (follow value).asked handler
      | .error _ => [] := by
  change (Interaction.bind first follow).asked handler = _
  induction first with
  | done value | fail fault => rfl
  | ask request next ih => exact congrArg (request :: ·) (ih (handler request))

@[simp] theorem each_done : Each allowed (.done value : Interaction I ε α) handler := by
  simp [Each,asked]
@[simp] theorem each_pure (value : α) : Each allowed (pure value : Interaction I ε α) handler :=
  each_done
@[simp] theorem each_fail (fault : ε) : Each allowed (.fail fault : Interaction I ε α) handler := by
  simp [Each,asked]
@[simp] theorem each_perform :
    Each allowed (perform request : Interaction I ε (I.Answer request)) handler ↔ allowed request := by
  simp [Each,perform,asked]

theorem each_bind : Each allowed (first >>= follow) handler ↔ Each allowed first handler ∧
      ∀ value, first.run handler = .ok value → Each allowed (follow value) handler := by
  simp only [Each,asked_bind]
  cases found : first.run handler with
  | error fault => simp
  | ok value => simp [or_imp,forall_and]

theorem each_bind_ok (found : first.run handler = .ok value) :
    Each allowed (first >>= follow) handler ↔ Each allowed first handler ∧ Each allowed (follow value) handler := by
  rw [each_bind,found]
  simp

@[simp] theorem each_bind_perform {follow : I.Answer request → Interaction I ε β} :
    Each allowed (perform request >>= follow) handler ↔
      allowed request ∧ Each allowed (follow (handler request)) handler := by
  rw [each_bind_ok (rfl : (perform request : Interaction I ε _).run handler = .ok (handler request)),each_perform]

@[simp] theorem each_attempt :
    Each allowed (part.attempt : Interaction I δ (Except ε α)) handler ↔ Each allowed part handler := by
  have same : (part.attempt : Interaction I δ (Except ε α)).asked handler = part.asked handler := by
    induction part with
    | done value | fail fault => rfl
    | ask request next ih => exact congrArg (request :: ·) (ih (handler request))
  rw [Each,same,Each]

@[simp] theorem each_failWith : Each allowed (part.failWith fault) handler ↔ Each allowed part handler := by
  have same : (part.failWith fault).asked handler = part.asked handler := by
    induction part with
    | done value | fail fault => rfl
    | ask request next ih => exact congrArg (request :: ·) (ih (handler request))
  rw [Each,same,Each]

end Interaction
end Foundations
