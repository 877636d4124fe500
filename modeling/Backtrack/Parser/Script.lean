-- The script of a parser: all that can be seen of it when it is read to its
-- end, written down depth first and without any stream. It is what the streams
-- are measured against. Where it asks for more recursion than it is given, it
-- stays unread from there on.
import Backtrack.Rules

namespace Backtrack

/-! ## How the parts of a parser are put together -/

namespace Script

/-- The script of one outcome. -/
def single (o : Outcome) : Script := outcome o done

/-- Every success of a script goes on with the script of a second parser from its
end, whose values are paired with its own. -/
def pairWith (second : Int → Script) : Script → Script :=
  expand fun
    | .failure index expect => single (.failure index expect)
    | .success index value => (second index).expand fun o => single (o.pairedWith value)

/-- Every outcome of a script changed by a function. -/
def change (f : Outcome → Action Outcome) : Script → Script :=
  expand fun o => withEvents (f o).events (ofResult (f o).result)

/-- The script of something absent, given the script of the thing itself. -/
def negate (text : Text) (start : Int) : Script → Script :=
  upToSuccess (fun stop => single (Parser.presence text start stop)) (single (.success start .none))

end Script

/-! ## Scripts of parsers -/

namespace Parser

/-- The script of any number of repetitions, given the script of one. The first
argument says how many of them may follow each other. -/
def repeated (body : Int → Script) : Nat → Int → Script
  | 0, _ => .unread
  | n + 1, i =>
    let one := (body i).change fun o => requireProgress o i
    let more := (one.pairWith (repeated body n)).change fun o => onValue consValues o i
    more.append (.single (.success i (.list [])))

/-- The script of a parser, given the scripts of the recursive ones. -/
def scriptWith (text : Text) (limit : Nat) (recursive : Handle → Int → Script) :
    Parser → Int → Script
  | leaf l, i => .ofResult (l.attempt text i)
  | custom step, i => .ofAction (step text i)
  | pair p q, i =>
    (p.scriptWith text limit recursive i).pairWith (q.scriptWith text limit recursive)
  | or p q, i =>
    (p.scriptWith text limit recursive i).append (q.scriptWith text limit recursive i)
  | mapOutcome f p, i => (p.scriptWith text limit recursive i).change fun o => f o i
  | not p, i => (p.scriptWith text limit recursive i).negate text i
  | many p, i => repeated (p.scriptWith text limit recursive) limit i
  | ref handle, i => recursive handle i

/-- The script of a parser. The limit says how deep recursive parsers may lie in
each other and how many repetitions may follow each other. -/
def script (rules : Rules) (text : Text) : Nat → Parser → Int → Script
  | 0 => scriptWith text 0 fun _ _ => .unread
  | n + 1 => scriptWith text (n + 1) fun handle i =>
    match rules.body? handle with
    | some body => script rules text n body i
    | none => .raised .undefinedHandle

end Parser

end Backtrack
