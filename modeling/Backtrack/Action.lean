-- Actions: computations that record events and end in an answer or a fault.
-- The events before a fault are kept, and nothing happens after it.
import Backtrack.Event
import Backtrack.Fault

namespace Backtrack

/-- The events of a computation and how it ended. -/
structure Action (α : Type) where
  events : List Event
  result : Except Fault α

namespace Action

variable {α β : Type}

/-! ## Building actions -/

/-- The second action after the first has answered. -/
def andThen (x : Action α) (f : α → Action β) : Action β :=
  match x.result with
  | .error fault => ⟨x.events, .error fault⟩
  | .ok a =>
    let y := f a
    ⟨x.events ++ y.events, y.result⟩

instance : Monad Action where
  pure a := ⟨[], .ok a⟩
  bind := andThen

/-- Record an event. -/
def emit (event : Event) : Action Unit := ⟨[event], .ok ()⟩

/-- End in a fault. -/
def raise (fault : Fault) : Action α := ⟨[], .error fault⟩

/-- The answer, or the fault if there is none. -/
def getOrRaise (fault : Fault) : Option α → Action α
  | some a => pure a
  | none => raise fault

/-! ## The laws of actions -/

@[simp] theorem pure_bind (a : α) (f : α → Action β) : (pure a >>= f) = f a := by
  simp [bind, pure, andThen]

end Action

end Backtrack
