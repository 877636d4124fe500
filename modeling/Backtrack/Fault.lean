-- Faults: what ends a run without an answer. A fault is never turned into a
-- failure that another choice could make up for.
import Backtrack.ParseError
import Backtrack.Pattern.Error
import Backtrack.Value

namespace Backtrack

/-- What ends a run without an answer. -/
inductive Fault where
  /-- A repeated parser succeeded without moving past its start. -/
  | emptyRepetition (offset : Int)
  /-- A value that is no sequence was used as one. -/
  | notIterable (value : Value)
  /-- A pattern matched, but has no such group. -/
  | noSuchGroup
  /-- A recursive parser was started before it had a body. -/
  | undefinedHandle
  /-- A written pattern is no pattern. -/
  | badPattern (source : String) (error : Pattern.Error)
  /-- A text could not be parsed. -/
  | unparsed (error : ParseError)
  /-- A function was given a value that it is not for. -/
  | badValue (function : String)
  /-- A text is not the numeral of a whole number. -/
  | notAnInteger (text : String)
  /-- A function or a step function gave up. -/
  | raised (message : String)
  /-- A name stands for nothing. -/
  | unknownName (name : String)
  /-- A text has no line with such a number. -/
  | noSuchLine

/-- The message of a fault. -/
def Fault.message : Fault → String
  | .emptyRepetition offset =>
    "Repeated parser matched the empty string at offset " ++ toString offset
  | .notIterable value => "'" ++ value.kindName ++ "' object is not iterable"
  | .noSuchGroup => "no such group"
  | .undefinedHandle => "recursive parser run before being defined"
  | .badPattern source error => error.message source
  | .unparsed error => error.message?.getD ""
  | .badValue function => "bad value for " ++ function
  | .notAnInteger text => "not an integer: " ++ text
  | .raised message => message
  | .unknownName name => name
  | .noSuchLine => "list index out of range"

end Backtrack
