-- Searches: actions that may also run out of fuel. A search that gets enough
-- fuel is an action; one that does not is none, and says nothing about how it
-- would have gone on.
import Backtrack.Action

namespace Backtrack

/-- An action, unless the fuel ran out. -/
def Search (α : Type) := Option (Action α)

namespace Search

variable {α β : Type}

/-- The fuel ran out. -/
def outOfFuel : Search α := none

/-- An action needs no fuel. -/
def ofAction (x : Action α) : Search α := some x

/-- The second search after the first has answered. -/
def andThen (x : Search α) (f : α → Search β) : Search β :=
  match x with
  | none => none
  | some x =>
    match x.result with
    | .error fault => some ⟨x.events, .error fault⟩
    | .ok a =>
      match f a with
      | none => none
      | some y => some ⟨x.events ++ y.events, y.result⟩

instance : Monad Search where
  pure a := some (pure a)
  bind := andThen

instance : MonadLift Action Search where
  monadLift := ofAction

/-! ## The laws of searches -/

@[simp] theorem pure_bind (a : α) (f : α → Search β) : (pure a >>= f) = f a := by
  change (match f a with
    | none => none
    | some y => some ⟨[] ++ y.events, y.result⟩) = f a
  cases f a <;> rfl

/-- A search made of two answers whenever both answer. -/
theorem bind_ofAction (x : Action α) (f : α → Action β) :
    (ofAction x >>= fun a => ofAction (f a)) = ofAction (x >>= f) := by
  simp only [bind, andThen, ofAction, Action.andThen]
  cases x.result <;> rfl

end Search

end Backtrack
