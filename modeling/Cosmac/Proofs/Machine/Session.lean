import Cosmac.Machine.Command
import Cosmac.Proofs.Machine.Run
import Mathlib.Data.List.Forall2

/-!
Sessions: commands carried out one after another, each on the machine that the one before it left.
Main statement: what two machines have in common after every single command, they have in common
through a whole session.
-/

set_option autoImplicit false
set_option relaxedAutoImplicit false

namespace Cosmac.Machine

variable {σ τ : Type} [Bus σ] [Bus τ]

def session (m : Machine σ) : List Command → List (Outcome Nat (Machine σ))
  | [] => []
  | command :: rest => m.perform command :: (m.perform command).state.session rest

/-- A relation between machines that each command keeps holds of what a session leaves in turn. -/
theorem forall₂_session {related : Machine σ → Machine τ → Prop}
    {alike : Outcome Nat (Machine σ) → Outcome Nat (Machine τ) → Prop} {commands : List Command}
    (keeps : ∀ command ∈ commands, ∀ m m', related m m' →
      alike (m.perform command) (m'.perform command) ∧
        related (m.perform command).state (m'.perform command).state)
    {m : Machine σ} {m' : Machine τ} (start : related m m') :
    List.Forall₂ alike (m.session commands) (m'.session commands) := by
  induction commands generalizing m m' with
  | nil => exact .nil
  | cons command rest ih =>
    obtain ⟨first, next⟩ := keeps command List.mem_cons_self m m' start
    exact .cons first (ih (fun later member => keeps later (List.mem_cons_of_mem _ member)) next)

end Cosmac.Machine
