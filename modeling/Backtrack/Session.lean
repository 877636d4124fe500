-- Sessions: parsers and streams kept by name. A command that meets a fault
-- leaves the session as it was, save that a stream which was read stays read.
import Backtrack.Grammar
import Backtrack.Parse

namespace Backtrack

/-! ## Sessions -/

/-- A stream with the text that it reads. -/
structure OpenStream where
  text : Text
  stream : Stream

/-- The parsers and the streams that have names. -/
structure Session where
  rules : Rules := .empty
  parsers : Scope := []
  streams : List (String × OpenStream) := []

namespace Session

def empty : Session := {}

/-- The session with a stream under a name, in place of the one that had it. -/
def keep (s : Session) (name : String) (o : OpenStream) : Session :=
  { s with streams := (name, o) :: s.streams.filter (·.1 != name) }

theorem lookup_keep_self (s : Session) (name : String) (o : OpenStream) :
    (s.keep name o).streams.lookup name = some o := by
  simp [keep]

/-! ## Commands and answers -/

/-- What a session can be told to do. A command without a limit reads on to the
end. -/
inductive Command where
  /-- Build a parser and name it. -/
  | define (name : String) (g : Grammar)
  /-- Start a parser and name its stream. -/
  | openStream (name : String) (g : Grammar) (text : String) (start : Int)
  /-- Ask a stream for outcomes. -/
  | pull (name : String) (limit : Option Nat)
  /-- Report on what is left of a stream. -/
  | report (name : String)
  | parse (g : Grammar) (text : String)
  | parseToEnd (g : Grammar) (text : String)
  | parseOrRaise (g : Grammar) (text : String) (toEnd : Bool)
  /-- Print the report on a text. -/
  | printReport (g : Grammar) (text : String)
  /-- Ask a parser for outcomes from an offset. -/
  | step (g : Grammar) (text : String) (start : Int) (limit : Option Nat)

/-- What a command answers. -/
inductive Answer where
  | accepted
  | outcomes (outcomes : List Outcome) (stop : Stream.Stop)
  | report (report : Report)
  | value (value : Value)
  | printed (text : String)

/-! ## What commands do -/

/-- The parser of a grammar that may use the names of the session. -/
def build (s : Session) (fuel : Nat) (g : Grammar) : Search (Parser × Rules) :=
  (g.build fuel s.parsers).run s.rules

/-- The answer of reading a stream. -/
def answerOf (reading : Stream.Reading) : Action Answer :=
  ⟨reading.events, .ok (.outcomes reading.outcomes reading.stop)⟩

/-- The answer of a search, and the session that it leads to unless it meets a
fault. -/
def settle (s : Session) (x : Search (Answer × Session)) : Option (Action Answer × Session) :=
  x.map fun x =>
    match x.result with
    | .ok (answer, after) => (⟨x.events, .ok answer⟩, after)
    | .error fault => (⟨x.events, .error fault⟩, s)

/-- A computation on a stream that has a name. -/
def onStream (s : Session) (name : String)
    (f : OpenStream → Option (Action Answer × Stream)) : Option (Action Answer × Session) :=
  match s.streams.lookup name with
  | none => some (Action.raise (.unknownName name), s)
  | some o => (f o).map fun (answer, rest) => (answer, s.keep name { o with stream := rest })

/-- Carry out a command. -/
def exec (fuel : Nat) (s : Session) : Command → Option (Action Answer × Session)
  | .define name g => s.settle do
    let (p, rules) ← s.build fuel g
    return (.accepted, { s with rules, parsers := (name, p) :: s.parsers })
  | .openStream name g text start => s.settle do
    let (p, rules) ← s.build fuel g
    let stream ← p.start rules text.toList fuel start
    return (.accepted, { s with rules }.keep name ⟨text.toList, stream⟩)
  | .pull name limit => s.onStream name fun o => do
    let reading ← o.stream.take s.rules o.text fuel (limit.getD fuel)
    return (answerOf reading, reading.rest)
  | .report name => s.onStream name fun o => do
    let (report, rest) ← o.stream.report s.rules o.text fuel
    return (do return .report (← report), rest)
  | .parse g text => s.settle do
    let (p, rules) ← s.build fuel g
    return (.report (← p.parse rules fuel text.toList), s)
  | .parseToEnd g text => s.settle do
    let (p, rules) ← s.build fuel g
    return (.report (← p.parseToEnd rules fuel text.toList), s)
  | .parseOrRaise g text toEnd => s.settle do
    let (p, rules) ← s.build fuel g
    return (.value (← p.parseOrRaise rules fuel text.toList toEnd), s)
  | .printReport g text => s.settle do
    let (p, rules) ← s.build fuel g
    return (.printed (← p.parse rules fuel text.toList).printed, s)
  | .step g text start limit => s.settle do
    let (p, rules) ← s.build fuel g
    let stream ← p.start rules text.toList fuel start
    let answer ← (stream.take rules text.toList fuel (limit.getD fuel)).map answerOf
    return (answer, s)

end Session

end Backtrack
