import Cosmac.Log
import Cosmac.Processor

/-!
The outcome of an operation: a result or a fault, the state that is left in either case, and what
was reported on the way to the log and to the observer.
-/

set_option autoImplicit false
set_option relaxedAutoImplicit false

namespace Cosmac

/-- What an operation answers, leaves and reports. -/
structure Outcome (α σ : Type) where
  result : Except Fault α
  state : σ
  log : List Record := []
  events : List Event := []

namespace Outcome

variable {α σ : Type}

def done (value : α) (state : σ) : Outcome α σ :=
  { result := .ok value, state }

def refuse (fault : Fault) (state : σ) : Outcome α σ :=
  { result := .error fault, state }

/-- The same outcome with earlier reports in front of its own. -/
def after (log : List Record) (events : List Event) (outcome : Outcome α σ) : Outcome α σ :=
  { outcome with log := log ++ outcome.log, events := events ++ outcome.events }

@[simp] theorem after_nil (outcome : Outcome α σ) : outcome.after [] [] = outcome := rfl

theorem after_after (log log' : List Record) (events events' : List Event)
    (outcome : Outcome α σ) :
    (outcome.after log' events').after log events =
      outcome.after (log ++ log') (events ++ events') := by
  simp only [after, List.append_assoc]

end Outcome

end Cosmac
