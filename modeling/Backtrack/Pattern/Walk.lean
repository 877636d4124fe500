-- The search for a match: a backtracking walk that tries earlier choices first
-- and takes the first way through. The rest of the tree is a continuation, so
-- that a choice is taken back when what follows it fails.
import Backtrack.Pattern.Regex

namespace Backtrack.Pattern

/-! ## Where a search stands -/

/-- The start and the end of what each group matched last, newest first. -/
abbrev Captures := List (Nat × Nat × Nat)

/-- A place in the text: the characters before it, nearest first, the characters
after it, and the groups matched so far. -/
structure Cursor where
  past : List Char
  rest : List Char
  captures : Captures := []

namespace Cursor

/-- The number of characters before the cursor. -/
def place (c : Cursor) : Nat := c.past.length

/-- The characters between two places of the text. -/
def slice (c : Cursor) (start stop : Nat) : List Char :=
  ((c.past.reverse ++ c.rest).take stop).drop start

/-- The cursor behind the next character, if the set holds it. -/
def over? (set : CharSet) (c : Cursor) : Option Cursor :=
  match c.rest with
  | [] => none
  | x :: rest => if set.accepts x then some { c with past := x :: c.past, rest } else none

/-- The cursor behind a repeated text, if that stands here. -/
def overText? (rule : CaseRule) : List Char → Cursor → Option Cursor
  | [], c => some c
  | w :: ws, c =>
    match c.rest with
    | [] => none
    | x :: rest =>
      if rule.small w.toNat = rule.small x.toNat then
        overText? rule ws { c with past := x :: c.past, rest }
      else none

/-- The cursor moved back by a number of characters, if there are as many. -/
def back? : Nat → Cursor → Option Cursor
  | 0, c => some c
  | n + 1, c =>
    match c.past with
    | [] => none
    | x :: past => back? n { c with past, rest := x :: c.rest }

end Cursor

/-- The first character, if there is one, is of the class. -/
def startsIn (kind : CharClass) (cs : List Char) : Bool := (cs.head?.map kind.holds).getD false

/-- The condition holds at the cursor. A text without characters has no word
edges and no places that are none. -/
def Anchor.holds (c : Cursor) : Anchor → Bool
  | .textStart => c.past.isEmpty
  | .textEnd => c.rest.isEmpty
  | .lineStart => c.past.isEmpty || c.past.head? == some '\n'
  | .lineEnd => c.rest.isEmpty || c.rest.head? == some '\n'
  | .lastLineEnd => c.rest.isEmpty || c.rest == ['\n']
  | .wordEdge kind => startsIn kind c.past != startsIn kind c.rest
  | .noWordEdge kind =>
    !(c.past.isEmpty && c.rest.isEmpty) && startsIn kind c.past == startsIn kind c.rest

/-! ## Repetition -/

/-- What is still to be matched, as a function of where the search stands. -/
abbrev Continuation := Cursor → Option Cursor

/-- The body a number of times, and then what follows. -/
def exactlyTimes (body : Continuation → Continuation) : Nat → Continuation → Continuation
  | 0, next => next
  | n + 1, next => body (exactlyTimes body n next)

/-- The body up to a number of times, and then what follows. A round that takes
no character is the last one. -/
def upToTimes (body : Continuation → Continuation) (greedy : Bool) :
    Nat → Continuation → Continuation
  | 0, next => next
  | n + 1, next => fun c =>
    let round := body fun d =>
      if d.place = c.place then next d else upToTimes body greedy n next d
    if greedy then round c <|> next c else next c <|> round c

/-- The body a number of times, each time as it first matches. -/
def inOneGo (body : Continuation → Continuation) : Nat → Cursor → Option Cursor
  | 0, c => some c
  | n + 1, c => (body some c).bind (inOneGo body n)

/-- The body up to a number of times, each time as it first matches, and as often as it does.
A round that takes no character is the last one. -/
def asFarAsItGoes (body : Continuation → Continuation) : Nat → Cursor → Cursor
  | 0, c => c
  | n + 1, c =>
    match body some c with
    | none => c
    | some d => if d.place = c.place then d else asFarAsItGoes body n d

/-- The rounds beyond the least number that a repetition may take at a cursor.
Each but the last takes a character, so the rest of the text bounds them. -/
def extraRounds (least : Nat) (most : Option Nat) (c : Cursor) : Nat :=
  match most with
  | some m => m - least
  | none => c.rest.length + 1

/-! ## The walk -/

/-- Match the tree and then what follows it. -/
def Regex.walk : Regex → Continuation → Continuation
  | .empty, next => next
  | .one set, next => fun c => (c.over? set).bind next
  | .seq a b, next => a.walk (b.walk next)
  | .alt a b, next => fun c => a.walk next c <|> b.walk next c
  | .group number body, next => fun c =>
    body.walk (fun d => next { d with captures := (number, c.place, d.place) :: d.captures }) c
  | .repetition body least most greedy, next =>
    exactlyTimes body.walk least fun c =>
      upToTimes body.walk greedy (extraRounds least most c) next c
  | .possessive body least most, next => fun c =>
    (inOneGo body.walk least c).bind fun d =>
      next (asFarAsItGoes body.walk (extraRounds least most d) d)
  | .atomic body, next => fun c => (body.walk some c).bind next
  | .conditional number present absent, next => fun c =>
    if (c.captures.lookup number).isSome then present.walk next c else absent.walk next c
  | .again number rule, next => fun c =>
    match c.captures.lookup number with
    | none => none
    | some (start, stop) => (c.overText? rule (c.slice start stop)).bind next
  | .ahead body wanted, next => fun c =>
    match body.walk some c, wanted with
    | some d, true => next { c with captures := d.captures }
    | none, false => next c
    | _, _ => none
  | .behind body width wanted, next => fun c =>
    match (c.back? width).bind (body.walk some), wanted with
    | some d, true => next { c with captures := d.captures }
    | none, false => next c
    | _, _ => none
  | .anchor place, next => fun c => if place.holds c then next c else none

/-- The first match at the start of a text. -/
def Regex.first? (r : Regex) (text : List Char) : Option Cursor :=
  r.walk some ⟨[], text, []⟩

end Backtrack.Pattern
