-- Scripts: what can be seen while a stream is read to its end. A script is the
-- line of events and outcomes in their order, and then the end of the stream or
-- the fault that cut it off.
import Backtrack.Search

namespace Backtrack

/-- What a stream shows from here on. Of a script that goes on `unread` nothing
is known: reading it was given up, or its source never answers. -/
inductive Script where
  | done
  | raised (fault : Fault)
  | unread
  | event (event : Event) (rest : Script)
  | outcome (outcome : Outcome) (rest : Script)

namespace Script

/-! ## Reading -/

/-- The stream has ended, or has given an outcome and goes on. -/
inductive Next (σ : Type) where
  | ended
  | yielded (outcome : Outcome) (rest : σ)

/-- Read a script up to its next outcome. -/
def next : Script → Search (Next Script)
  | done => pure .ended
  | raised fault => Action.raise fault
  | unread => Search.outOfFuel
  | event e rest => do
    Action.emit e
    rest.next
  | outcome o rest => return .yielded o rest

/-! ## Writing -/

/-- The script of outcomes that are there already. -/
def ofOutcomes : List Outcome → Script
  | [] => done
  | o :: rest => outcome o (ofOutcomes rest)

/-- The script of a computation of one outcome. -/
def ofResult : Except Fault Outcome → Script
  | .ok o => outcome o done
  | .error fault => raised fault

/-- Events before a script. -/
def withEvents (events : List Event) (rest : Script) : Script := events.foldr event rest

/-- The script that an action leads to. -/
def ofAction (x : Action Script) : Script :=
  withEvents x.events <|
    match x.result with
    | .ok s => s
    | .error fault => raised fault

/-- A script followed by another once it has ended. -/
def append : Script → Script → Script
  | done, t => t
  | raised fault, _ => raised fault
  | unread, _ => unread
  | event e rest, t => event e (rest.append t)
  | outcome o rest, t => outcome o (rest.append t)

/-- Every outcome of a script replaced by the script that an action makes of it. -/
def expand (f : Outcome → Script) : Script → Script
  | done => done
  | raised fault => raised fault
  | unread => unread
  | event e rest => event e (rest.expand f)
  | outcome o rest => (f o).append (rest.expand f)

/-- The events of a script up to its first success, of which only the end is
handed on. Failures are left out, and the end of a script without success is
replaced by another script. -/
def upToSuccess (found : Int → Script) (otherwise : Script) : Script → Script
  | done => otherwise
  | raised fault => raised fault
  | unread => unread
  | event e rest => event e (upToSuccess found otherwise rest)
  | outcome (.failure _ _) rest => upToSuccess found otherwise rest
  | outcome (.success index _) _ => found index

/-! ## Laws -/

@[simp] theorem append_done (s : Script) : s.append done = s := by
  induction s <;> simp_all [append]

theorem append_assoc (s t u : Script) : (s.append t).append u = s.append (t.append u) := by
  induction s <;> simp_all [append]

@[simp] theorem withEvents_append (events : List Event) (s t : Script) :
    (withEvents events s).append t = withEvents events (s.append t) := by
  induction events with
  | nil => rfl
  | cons e events ih => simp_all [withEvents, append]

theorem append_expand (s t : Script) (f : Outcome → Script) :
    (s.append t).expand f = (s.expand f).append (t.expand f) := by
  induction s <;> simp_all [append, expand, append_assoc]

theorem expand_expand (s : Script) (f g : Outcome → Script) :
    (s.expand f).expand g = s.expand fun o => (f o).expand g := by
  induction s <;> simp_all [expand, append_expand]

theorem expand_outcome (s : Script) : (s.expand fun o => outcome o done) = s := by
  induction s <;> simp_all [expand, append]

end Script

end Backtrack
