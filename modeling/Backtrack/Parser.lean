-- Parsers. A parser read at an offset of a text gives a stream of outcomes, in
-- the order in which its choices are tried. Few parsers deal with streams; all
-- others are made of these.
import Backtrack.Leaf
import Backtrack.Script

namespace Backtrack

/-- The number of a recursive parser. -/
abbrev Handle := Nat

/-- A parser. -/
inductive Parser where
  /-- One attempt. -/
  | leaf (leaf : Leaf)
  /-- A step function of the user's, called with the text and the start. -/
  | custom (step : Text → Int → Action Script)
  /-- Each success of the first goes on with the outcomes of the second from its end. -/
  | pair (first second : Parser)
  /-- The outcomes of the first and then those of the second. -/
  | or (first second : Parser)
  /-- Every outcome changed by a function, which is told the start too. -/
  | mapOutcome (change : Outcome → Int → Action Outcome) (body : Parser)
  /-- A failure if the body has a success, and otherwise a success that takes nothing. -/
  | not (body : Parser)
  /-- Any number of repetitions, more of them first. -/
  | many (body : Parser)
  /-- The recursive parser of a number. -/
  | ref (handle : Handle)

namespace Parser

/-! ## Leaves -/

/-- A success that takes nothing. -/
def succeed (value : Value := .none) : Parser := leaf (.succeed value)

/-- A failure. -/
def fail (expect : String := "nothing") : Parser := leaf (.fail expect)

/-- The end of the text. -/
def endOfText : Parser := leaf .endOfText

/-- A literal. -/
def string (literal : String) : Parser := leaf (.string literal)

/-! ## Values -/

/-- A function of values as a function of outcomes. Failures stay as they are. -/
def onValue (f : Value → Action Value) (o : Outcome) (_ : Int) : Action Outcome :=
  match o with
  | .success index value => return .success index (← f value)
  | .failure index expect => return .failure index expect

/-- The value of every success changed by a function. -/
def map (f : Value → Action Value) (p : Parser) : Parser := p.mapOutcome (onValue f)

/-- Every success has the given value. -/
def as (value : Value) (p : Parser) : Parser := p.map fun _ => pure value

/-- Both in order, with the value of the second. -/
def keepSecond (p q : Parser) : Parser := (p.pair q).map fun v => pure v.second

/-- Both in order, with the value of the first. -/
def keepFirst (p q : Parser) : Parser := (p.pair q).map fun v => pure v.first

/-- The elements of a value that is a sequence. -/
def elementsOf (value : Value) : Action (List Value) :=
  Action.getOrRaise (.notIterable value) value.elements?

/-- The list of the first of a pair and the elements of the second. -/
def consValues (v : Value) : Action Value :=
  return .list (v.first :: (← elementsOf v.second))

/-- The list of the elements of the first of a pair and the second. -/
def snocValues (v : Value) : Action Value :=
  return .list ((← elementsOf v.first) ++ [v.second])

/-- Both in order, with the value of the first put before those of the second. -/
def cons (p q : Parser) : Parser := (p.pair q).map consValues

/-- Both in order, with the value of the second put behind those of the first. -/
def snoc (p q : Parser) : Parser := (p.pair q).map snocValues

/-- The parser and then the end of the text. -/
def toEnd (p : Parser) : Parser := p.keepFirst endOfText

/-! ## Repetition -/

/-- Refuse a success that does not get past its start. -/
def requireProgress (o : Outcome) (start : Int) : Action Outcome :=
  match o with
  | .success index value =>
    if index ≤ start then do
      Action.emit (.logged (.emptyRepetition start))
      Action.raise (.emptyRepetition start)
    else return .success index value
  | .failure index expect => return .failure index expect

/-- The parser, refused where it takes nothing. -/
def advancing (p : Parser) : Parser := p.mapOutcome requireProgress

/-- What any number of repetitions come to: one and then any number, or none. -/
def unfoldMany (p : Parser) : Parser := (p.advancing.cons p.many).or (succeed (.list []))

/-- One repetition or more. -/
def many1 (p : Parser) : Parser := p.cons p.many

/-- One or more with a separator between them, with the values of the separators
left out. -/
def sepBy1 (p separator : Parser) : Parser := p.cons (separator.keepSecond p).many

/-- Any number with a separator between them. -/
def sepBy (p separator : Parser) : Parser := (p.sepBy1 separator).or (succeed (.list []))

/-! ## Descriptions and looking ahead -/

/-- The outcome with another description of what was expected. -/
def described (expect : String) (o : Outcome) (_ : Int) : Action Outcome :=
  match o with
  | .success index value => return .success index value
  | .failure index _ => return .failure index expect

/-- Every failure expects the given thing. -/
def describe (expect : String) (p : Parser) : Parser := p.mapOutcome (described expect)

/-- The outcome, taken back to the start if it is a success. -/
def rewound (o : Outcome) (start : Int) : Action Outcome :=
  match o with
  | .success _ value => return .success start value
  | .failure index expect => return .failure index expect

/-- Every success takes nothing. -/
def peek (p : Parser) : Parser := p.mapOutcome rewound

/-- The failure of a parser to be absent, which quotes the text of its success. -/
def presence (text : Text) (start stop : Int) : Outcome :=
  .failure start ("not string " ++ String.ofList (text.between start stop))

/-- The parser where the other has no success behind it. -/
def notFollowedBy (p other : Parser) : Parser := p.keepFirst other.not

/-- The parser where the other has a success behind it. -/
def followedBy (p other : Parser) : Parser := p.keepFirst other.peek

/-! ## Any number of parsers -/

/-- All in order, with the list of their values. -/
def seq (ps : List Parser) : Parser := ps.foldl snoc (succeed (.list []))

/-- Any of them, earlier ones first. -/
def choice : List Parser → Parser
  | [] => fail "some choice"
  | p :: ps => ps.foldl or p

end Parser

end Backtrack
