-- Functions that are at hand for grammars: some are applied to the values of
-- successes, others to whole outcomes.
import Backtrack.Action

namespace Backtrack

/-! ## Functions of values -/

/-- A function that is applied to the value of a success. -/
inductive MapFunction where
  | id
  | int
  | neg
  | sum
  | product
  | join
  | length
  | reverse
  | list
  | tuple
  | item (position : Nat)
  | flatten
  | tag (label : Value)
  | tap (observer : String)
  | boom (message : String)

namespace MapFunction

/-- The name of a function, as a fault tells it. -/
def name : MapFunction → String
  | id => "id"
  | int => "int"
  | neg => "neg"
  | sum => "sum"
  | product => "product"
  | join => "join"
  | length => "len"
  | reverse => "reverse"
  | list => "list"
  | tuple => "tuple"
  | item _ => "at"
  | flatten => "flatten"
  | tag _ => "tag"
  | tap _ => "tap"
  | boom _ => "boom"

/-! ### What a value holds -/

/-- The items of a list or a tuple. -/
def items? : Value → Option (List Value)
  | .list items => some items
  | .tuple items => some items
  | _ => none

def int? : Value → Option Int
  | .int n => some n
  | _ => none

def str? : Value → Option String
  | .str s => some s
  | _ => none

/-- The items of a list or a tuple all of which are of one kind. -/
def itemsOf? {α : Type} (kind? : Value → Option α) (v : Value) : Option (List α) := do
  (← items? v).mapM kind?

/-- The number that decimal digits stand for, at least one of them. -/
def magnitude? (ds : List Char) : Option Nat :=
  if ds.isEmpty || !ds.all Char.isDigit then none
  else some (ds.foldl (fun n d => n * 10 + (d.toNat - 48)) 0)

/-- The whole number of decimal digits behind an optional minus sign. -/
def numeral? (s : String) : Option Int :=
  match s.toList with
  | '-' :: ds => (magnitude? ds).map fun n => -(n : Int)
  | ds => (magnitude? ds).map fun n => (n : Int)

/-- The number of characters or items. -/
def length? : Value → Option Int
  | .str s => some s.length
  | v => (items? v).map fun items => items.length

/-- The characters or items the other way round. -/
def reversed? : Value → Option Value
  | .str s => some (.str (String.ofList s.toList.reverse))
  | .list items => some (.list items.reverse)
  | .tuple items => some (.tuple items.reverse)
  | _ => none

/-! ### Application -/

/-- Apply a function to a value. -/
def apply (f : MapFunction) (v : Value) : Action Value :=
  let wanted := fun (result : Option Value) => Action.getOrRaise (.badValue f.name) result
  match f with
  | id => return v
  | int => do
    match str? v with
    | none => Action.raise (.badValue f.name)
    | some s => return .int (← Action.getOrRaise (.notAnInteger s) (numeral? s))
  | neg => wanted ((int? v).map fun n => .int (-n))
  | sum => wanted ((itemsOf? int? v).map fun ns => .int (ns.foldl (· + ·) 0))
  | product => wanted ((itemsOf? int? v).map fun ns => .int (ns.foldl (· * ·) 1))
  | join => wanted ((itemsOf? str? v).map fun ss => .str (String.join ss))
  | length => wanted ((length? v).map .int)
  | reverse => wanted (reversed? v)
  | list => wanted (v.elements?.map .list)
  | tuple => wanted (v.elements?.map .tuple)
  | item position => wanted ((items? v).bind fun items => items[position]?)
  | flatten => wanted ((itemsOf? items? v).map fun parts => .list parts.flatten)
  | tag label => return .list [label, v]
  | tap observer => do
    Action.emit (.mapped observer v)
    return v
  | boom message => Action.raise (.raised message)

instance : Coe MapFunction (Value → Action Value) := ⟨apply⟩

end MapFunction

/-! ## Functions of outcomes -/

/-- A function that is applied to an outcome and the offset where it started. -/
inductive ResultFunction where
  | record (observer : String)
  | shift (distance : Int)
  | shiftFail (distance : Int)
  | span
  | recover
  | reject (expect : String)
  | swap
  | boomFail

namespace ResultFunction

/-- Apply a function to an outcome. -/
def apply (f : ResultFunction) (o : Outcome) (start : Int) : Action Outcome :=
  match f, o with
  | record observer, o => do
    Action.emit (.seen observer o start)
    return o
  | shift distance, .success _ _ => return o.moved distance
  | shiftFail distance, .failure _ _ => return o.moved distance
  | span, .success index value => return .success index (.tuple [.int start, .int index, value])
  | recover, .failure index expect =>
    return .success start (.list [.str "recovered", .int index, .str expect])
  | reject expect, .success index _ => return .failure index expect
  | swap, .success _ _ => return .failure start "swapped"
  | swap, .failure index expect => return .success index (.str expect)
  | boomFail, .failure _ expect => Action.raise (.raised expect)
  | _, o => return o

instance : Coe ResultFunction (Outcome → Int → Action Outcome) := ⟨apply⟩

end ResultFunction

end Backtrack
