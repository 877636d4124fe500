-- Streams: parsers suspended while they are read. A stream computes no outcome
-- before it is asked for one, and what it has not been asked for it has not
-- done. Fuel bounds how deep one question may reach; it is no part of any
-- answer.
import Backtrack.Rules

namespace Backtrack

/-- A suspended parser. -/
inductive Stream where
  /-- What is left of a step function's script. -/
  | items (rest : Script)
  /-- A parser of which nothing has been asked. -/
  | waiting (parser : Parser) (start : Int)
  /-- A sequence that waits for the next success of its first part. -/
  | first (left : Stream) (second : Parser)
  /-- A sequence inside its second part, behind a success of its first. -/
  | second (value : Value) (inner left : Stream) (second : Parser)
  /-- A choice inside its first part. -/
  | either (left : Stream) (other : Parser) (start : Int)
  /-- A stream whose outcomes are changed. -/
  | changed (change : Outcome → Int → Action Outcome) (start : Int) (inner : Stream)
  /-- A stream of which only the first success matters. -/
  | negated (start : Int) (inner : Stream)

namespace Stream

/-- The stream that has ended. -/
def ended : Stream := items .done

end Stream

/-! ## Starting a parser -/

namespace Parser

/-- Start a parser at an offset. A step function is called at once, and a
recursive parser starts its body at once; all others wait to be asked. -/
def start (rules : Rules) (text : Text) : Nat → Parser → Int → Search Stream
  | 0, _, _ => Search.outOfFuel
  | n + 1, p, i =>
    match p with
    | .custom step => do return .items (← step text i)
    | .ref handle =>
      match rules.body? handle with
      | some body => start rules text n body i
      | none => Action.raise .undefinedHandle
    | p => return .waiting p i

/-- What a waiting parser becomes when it is asked for the first time. -/
def resume (rules : Rules) (text : Text) (n : Nat) (p : Parser) (i : Int) : Search Stream :=
  match p with
  | .leaf l => return .items (.ofResult (l.attempt text i))
  | .pair p q => do return .first (← p.start rules text n i) q
  | .or p q => do return .either (← p.start rules text n i) q i
  | .mapOutcome change p => do return .changed change i (← p.start rules text n i)
  | .not p => do return .negated i (← p.start rules text n i)
  | .many p => return .waiting p.unfoldMany i
  | p => p.start rules text n i

end Parser

/-! ## Asking for outcomes -/

namespace Stream

/-- Ask a stream for its next outcome. -/
def pull (rules : Rules) (text : Text) : Nat → Stream → Search (Script.Next Stream)
  | 0, _ => Search.outOfFuel
  | _ + 1, .items rest => do
    match ← rest.next with
    | .ended => return .ended
    | .yielded o rest => return .yielded o (.items rest)
  | n + 1, .waiting p i => do
    pull rules text n (← p.resume rules text n i)
  | n + 1, .first left q => do
    match ← pull rules text n left with
    | .ended => return .ended
    | .yielded (.failure index expect) left =>
      return .yielded (.failure index expect) (.first left q)
    | .yielded (.success index value) left =>
      let inner ← q.start rules text n index
      pull rules text n (.second value inner left q)
  | n + 1, .second value inner left q => do
    match ← pull rules text n inner with
    | .ended => pull rules text n (.first left q)
    | .yielded o inner => return .yielded (o.pairedWith value) (.second value inner left q)
  | n + 1, .either left q i => do
    match ← pull rules text n left with
    | .ended => pull rules text n (← q.start rules text n i)
    | .yielded o left => return .yielded o (.either left q i)
  | n + 1, .changed change i inner => do
    match ← pull rules text n inner with
    | .ended => return .ended
    | .yielded o inner => return .yielded (← change o i) (.changed change i inner)
  | n + 1, .negated i inner => do
    match ← pull rules text n inner with
    | .ended => return .yielded (.success i .none) ended
    | .yielded (.failure _ _) inner => pull rules text n (.negated i inner)
    | .yielded (.success index _) _ => return .yielded (Parser.presence text i index) ended

/-- The next outcome, none at the end, and the stream that is left. A stream that
has met a fault has ended. -/
def advance (rules : Rules) (text : Text) (fuel : Nat) (s : Stream) :
    Option (Action (Option Outcome) × Stream) :=
  match s.pull rules text fuel with
  | none => none
  | some ⟨events, .error fault⟩ => some (⟨events, .error fault⟩, ended)
  | some ⟨events, .ok .ended⟩ => some (⟨events, .ok none⟩, ended)
  | some ⟨events, .ok (.yielded o rest)⟩ => some (⟨events, .ok (some o)⟩, rest)

/-! ## Reading a stream -/

/-- Why reading a stream stopped. -/
inductive Stop where
  /-- The stream has ended. -/
  | exhausted
  /-- As much was read as was wanted. -/
  | satisfied
  /-- A fault was met. -/
  | faulted (fault : Fault)

/-- What reading a stream has given: the events, the outcomes, why it stopped, and
the stream that is left. -/
structure Reading where
  events : List Event
  outcomes : List Outcome
  stop : Stop
  rest : Stream

/-- Read a stream up to the first outcome that is wanted, and no more outcomes
than the limit. -/
def read (rules : Rules) (text : Text) (fuel : Nat) (wanted : Outcome → Bool) :
    Nat → Stream → Option Reading
  | 0, s => some ⟨[], [], .satisfied, s⟩
  | n + 1, s => do
    match ← s.advance rules text fuel with
    | (⟨events, .error fault⟩, rest) => return ⟨events, [], .faulted fault, rest⟩
    | (⟨events, .ok none⟩, rest) => return ⟨events, [], .exhausted, rest⟩
    | (⟨events, .ok (some o)⟩, rest) =>
      if wanted o then return ⟨events, [o], .satisfied, rest⟩
      else
        let later ← rest.read rules text fuel wanted n
        return { later with events := events ++ later.events, outcomes := o :: later.outcomes }

/-- Read no more outcomes than the limit. -/
def take (rules : Rules) (text : Text) (fuel limit : Nat) (s : Stream) : Option Reading :=
  s.read rules text fuel (fun _ => false) limit

end Stream

end Backtrack
