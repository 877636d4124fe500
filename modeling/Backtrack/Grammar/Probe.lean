-- Probes: step functions that record when they are called and what is asked of
-- them, and give outcomes that are written down beforehand.
import Backtrack.Script
import Backtrack.Text

namespace Backtrack

/-- One outcome of a probe as it is written down. -/
inductive ProbeEntry where
  /-- The outcome as it stands. -/
  | absolute (outcome : Outcome)
  /-- The outcome with its offset counted from the start. -/
  | relative (outcome : Outcome)
  /-- A success with its end counted from the start, left out where it would end
  beyond the text. -/
  | fitting (length : Int) (value : Value)
  /-- The probe gives up. -/
  | boom (message : String)

/-- How a probe gives its outcomes. -/
inductive ProbeSupply where
  /-- One after the other, as they are asked for. -/
  | lazily (entries : List ProbeEntry)
  /-- All at once, and nobody sees when they are asked for. -/
  | atOnce (entries : List ProbeEntry)
  /-- Instead of outcomes a value. -/
  | value (value : Value)

/-- A step function under observation. -/
structure Probe where
  id : String
  supply : ProbeSupply

namespace ProbeEntry

/-- The outcome of an entry at a start, if it is one. -/
def outcome? (start : Int) : ProbeEntry → Option Outcome
  | absolute o => some o
  | relative o => some (o.moved start)
  | fitting length value => some (.success (start + length) value)
  | boom _ => none

/-- The entry is left out by a probe that is asked for one outcome after the other. -/
def leftOut (text : Text) (start : Int) : ProbeEntry → Bool
  | fitting length _ => decide ((text.length : Int) < start + length)
  | _ => false

end ProbeEntry

namespace Probe

/-- The script of a probe that is asked for one outcome after the other. Every
entry counts for the positions, also one that is left out. -/
def lazyScript (id : String) (text : Text) (start : Int) : Nat → List ProbeEntry → Script
  | _, [] => .done
  | n, entry :: rest =>
    if entry.leftOut text start then lazyScript id text start (n + 1) rest
    else
      .event (.pulled id n) <|
        match entry with
        | .boom message => .raised (.raised message)
        | .absolute o => .outcome o (lazyScript id text start (n + 1) rest)
        | .relative o => .outcome (o.moved start) (lazyScript id text start (n + 1) rest)
        | .fitting length value =>
          .outcome (.success (start + length) value) (lazyScript id text start (n + 1) rest)

/-- The step function of a probe. The call is recorded at once. -/
def step (probe : Probe) (text : Text) (start : Int) : Action Script := do
  Action.emit (.called probe.id start)
  match probe.supply with
  | .lazily entries => return lazyScript probe.id text start 1 entries
  | .atOnce entries => return .ofOutcomes (entries.filterMap (·.outcome? start))
  | .value v => do
    discard (Action.getOrRaise (.notIterable v) v.elements?)
    return .done

end Probe

end Backtrack
