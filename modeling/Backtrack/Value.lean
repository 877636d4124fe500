-- The values that parsers produce: nothing, truth values, whole numbers,
-- strings, and lists and tuples of values.
import Backtrack.Text.Quoted

namespace Backtrack

/-- A value that a parser produces. -/
inductive Value where
  | none
  | bool (b : Bool)
  | int (n : Int)
  | str (s : String)
  | list (items : List Value)
  | tuple (items : List Value)
deriving Inhabited

namespace Value

/-! ## Pairs and sequences -/

/-- The pair that a sequence of two parsers produces. -/
def pair (a b : Value) : Value := tuple [a, b]

/-- The first of a pair. -/
def first : Value → Value
  | tuple [a, _] => a
  | v => v

/-- The second of a pair. -/
def second : Value → Value
  | tuple [_, b] => b
  | v => v

/-- The elements of a sequence. A string is the sequence of its characters, and
what is neither string, list nor tuple is no sequence. -/
def elements? : Value → Option (List Value)
  | str s => some (s.toList.map fun c => str (String.singleton c))
  | list items => some items
  | tuple items => some items
  | none | bool _ | int _ => Option.none

@[simp] theorem first_pair (a b : Value) : (pair a b).first = a := rfl

@[simp] theorem second_pair (a b : Value) : (pair a b).second = b := rfl

@[simp] theorem elements?_list (items : List Value) : (list items).elements? = some items := rfl

/-! ## The printed form -/

mutual

/-- The printed form of a value. Strings are quoted, and a tuple of one value
keeps its comma. -/
def printed : Value → String
  | none => "None"
  | bool true => "True"
  | bool false => "False"
  | int n => toString n
  | str s => quoted s
  | list items => "[" ++ printedItems items ++ "]"
  | tuple [item] => "(" ++ item.printed ++ ",)"
  | tuple items => "(" ++ printedItems items ++ ")"

/-- The printed forms of values with commas between them. -/
def printedItems : List Value → String
  | [] => ""
  | [item] => item.printed
  | item :: rest => item.printed ++ ", " ++ printedItems rest

end

/-- The name of the kind of a value. -/
def kindName : Value → String
  | none => "NoneType"
  | bool _ => "bool"
  | int _ => "int"
  | str _ => "str"
  | list _ => "list"
  | tuple _ => "tuple"

end Value

end Backtrack
