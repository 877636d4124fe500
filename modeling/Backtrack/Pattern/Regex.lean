-- Regular expressions as trees, and the width of what a tree can match.
import Backtrack.Pattern.CharSet

namespace Backtrack.Pattern

/-! ## Trees -/

/-- A condition on the place between two characters. Edges of words carry the class of the
characters that words are made of. -/
inductive Anchor where
  | textStart
  | textEnd
  | lineStart
  | lineEnd
  | lastLineEnd
  | wordEdge (kind : CharClass)
  | noWordEdge (kind : CharClass)
deriving DecidableEq, Repr

/-- A regular expression. Groups carry their numbers, and a look behind carries the width of
its body. What is atomic or possessive keeps to its first match, and a conditional goes by
whether a group has matched. -/
inductive Regex where
  | empty
  | one (set : CharSet)
  | seq (first second : Regex)
  | alt (first second : Regex)
  | group (number : Nat) (body : Regex)
  | repetition (body : Regex) (least : Nat) (most : Option Nat) (greedy : Bool)
  | possessive (body : Regex) (least : Nat) (most : Option Nat)
  | atomic (body : Regex)
  | again (number : Nat) (rule : CaseRule)
  | conditional (number : Nat) (present absent : Regex)
  | ahead (body : Regex) (wanted : Bool)
  | behind (body : Regex) (width : Nat) (wanted : Bool)
  | anchor (place : Anchor)

namespace Regex

/-- The parts one after the other. -/
def sequence (parts : List Regex) : Regex := parts.foldr seq empty

/-- One of the choices, earlier ones preferred. -/
def choices : List Regex → Regex
  | [] => empty
  | [r] => r
  | r :: rest => alt r (choices rest)

end Regex

/-! ## Widths -/

/-- The least and the greatest number of characters that a match can take. -/
structure Width where
  least : Nat
  most : Option Nat
deriving DecidableEq, Repr

namespace Width

def exactly (n : Nat) : Width := ⟨n, some n⟩

def add (a b : Width) : Width :=
  ⟨a.least + b.least, do return (← a.most) + (← b.most)⟩

def either (a b : Width) : Width :=
  ⟨min a.least b.least, do return max (← a.most) (← b.most)⟩

/-- The width of a repetition. Nothing repeated without end is still nothing. -/
def times (w : Width) (least : Nat) (most : Option Nat) : Width :=
  ⟨w.least * least,
   if w.most = some 0 then some 0 else do return (← w.most) * (← most)⟩

/-- The one width, if the least and the greatest agree. -/
def fixed? (w : Width) : Option Nat := if w.most = some w.least then some w.least else none

end Width

/-- The width of a tree, given the widths of the groups that it repeats. -/
def Regex.width (groups : Nat → Width) : Regex → Width
  | .empty => .exactly 0
  | .one _ => .exactly 1
  | .seq a b => (a.width groups).add (b.width groups)
  | .alt a b => (a.width groups).either (b.width groups)
  | .group _ body => body.width groups
  | .repetition body least most _ => (body.width groups).times least most
  | .possessive body least most => (body.width groups).times least most
  | .atomic body => body.width groups
  | .again number _ => groups number
  | .conditional _ present absent => (present.width groups).either (absent.width groups)
  | .ahead _ _ => .exactly 0
  | .behind _ _ _ => .exactly 0
  | .anchor _ => .exactly 0

end Backtrack.Pattern
