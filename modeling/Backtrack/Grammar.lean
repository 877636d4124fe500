-- Grammars as they are written down, and the parsers that they stand for.
-- Building a parser starts nothing: all that it does is to read the patterns,
-- look up the names and give out handles.
import Backtrack.Grammar.Callback
import Backtrack.Grammar.Probe
import Backtrack.Stream

namespace Backtrack

/-! ## Written grammars -/

/-- An operator on one grammar. -/
inductive UnaryOp where
  | toEnd
  | many
  | many1
  | peek
  | not
  | as (value : Value)
  | describe (expect : String)
  | map (f : Value → Action Value)
  | mapOutcome (f : Outcome → Int → Action Outcome)

/-- An operator on two grammars. -/
inductive BinaryOp where
  | pair
  | or
  | keepSecond
  | keepFirst
  | cons
  | snoc
  | sepBy
  | sepBy1
  | notFollowedBy
  | followedBy

/-- A written pattern with what goes with it. The flags of a pattern that was made
ready beforehand rule out all others. -/
structure WrittenPattern where
  source : String
  group : Pattern.GroupRef := .number 0
  flags : Pattern.Flags := {}
  compiled : Option Pattern.Flags := none

/-- A grammar as it is written down. -/
inductive Grammar where
  | leaf (leaf : Leaf)
  | regexp (pattern : WrittenPattern)
  | unary (op : UnaryOp) (g : Grammar)
  | binary (op : BinaryOp) (g h : Grammar)
  | seq (gs : List Grammar)
  | choice (gs : List Grammar)
  /-- A recursive grammar, whose body may refer to its name. One that is started
  early is started on a text before it has its body. -/
  | recursive (name : String) (early : Option String) (g : Grammar)
  | ref (name : String)
  /-- Grammars that are built beforehand. The body may use each of their parsers under its
  name, any number of times. -/
  | given (names : List String) (gs : List Grammar) (body : Grammar)
  /-- A step function of the user's. -/
  | custom (step : Text → Int → Action Script)

/-- A step function under observation. -/
def Grammar.probe (p : Probe) : Grammar := .custom p.step

/-! ## What operators do -/

/-- The parser that an operator makes of one. -/
def UnaryOp.apply (p : Parser) : UnaryOp → Parser
  | toEnd => p.toEnd
  | many => p.many
  | many1 => p.many1
  | peek => p.peek
  | not => p.not
  | as value => p.as value
  | describe expect => p.describe expect
  | map f => p.map f
  | mapOutcome f => p.mapOutcome f

/-- The parser that an operator makes of two. -/
def BinaryOp.apply (p q : Parser) : BinaryOp → Parser
  | pair => p.pair q
  | or => p.or q
  | keepSecond => p.keepSecond q
  | keepFirst => p.keepFirst q
  | cons => p.cons q
  | snoc => p.snoc q
  | sepBy => p.sepBy q
  | sepBy1 => p.sepBy1 q
  | notFollowedBy => p.notFollowedBy q
  | followedBy => p.followedBy q

/-- The leaf of a written pattern. -/
def WrittenPattern.leaf (w : WrittenPattern) : Except Fault Leaf :=
  match Pattern.ofSource w.source (w.compiled.getD w.flags) with
  | .ok pattern => .ok (.regexp pattern w.group)
  | .error e => .error (.badPattern w.source e)

/-! ## Building -/

/-- The parsers that names stand for, inner ones first. -/
abbrev Scope := List (String × Parser)

/-- A step of building, which may give out handles. -/
abbrev Build := StateT Rules Search

namespace Build

/-- Give out a handle. -/
def reserve : Build Handle := do
  let rules ← get
  set rules.reserve
  return rules.nextHandle

/-- Write down the body of a handle. -/
def define (handle : Handle) (body : Parser) : Build Unit :=
  modify fun rules => rules.define handle body

end Build

namespace Grammar

mutual

/-- Build the parser of a grammar, the operands of an operator in their order. -/
def build (fuel : Nat) (scope : Scope) : Grammar → Build Parser
  | leaf l => return .leaf l
  | regexp w => do
    let l ← Action.mk [] w.leaf
    return .leaf l
  | unary op g => do return op.apply (← g.build fuel scope)
  | binary op g h => do
    let p ← g.build fuel scope
    let q ← h.build fuel scope
    return op.apply p q
  | seq gs => do return .seq (← buildAll fuel scope gs)
  | choice gs => do return .choice (← buildAll fuel scope gs)
  | recursive name early g => do
    let handle ← Build.reserve
    Action.emit (.built name)
    if let some text := early then
      discard ((Parser.ref handle).start (← get) text.toList fuel 0)
    let body ← g.build fuel ((name, .ref handle) :: scope)
    Build.define handle body
    return .ref handle
  | ref name => Action.getOrRaise (.unknownName name) (scope.lookup name)
  | given names gs body => do
    let ps ← buildAll fuel scope gs
    body.build fuel (names.zip ps ++ scope)
  | custom step => return .custom step

/-- Build the parsers of grammars in their order. -/
def buildAll (fuel : Nat) (scope : Scope) : List Grammar → Build (List Parser)
  | [] => return []
  | g :: gs => do
    let p ← g.build fuel scope
    let ps ← buildAll fuel scope gs
    return p :: ps

end

end Grammar

end Backtrack
