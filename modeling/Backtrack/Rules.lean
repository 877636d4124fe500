-- Rules: the bodies of the recursive parsers. A handle is given out first, so
-- that the body may refer to it, and its body is written down afterwards.
import Backtrack.Parser

namespace Backtrack

/-- The bodies of the recursive parsers by their handles. A body that is not there
yet is missing. -/
structure Rules where
  bodies : Array (Option Parser) := #[]

namespace Rules

def empty : Rules := {}

/-- The handle that is given out next. -/
def nextHandle (rules : Rules) : Handle := rules.bodies.size

/-- Give out a handle. -/
def reserve (rules : Rules) : Rules := ⟨rules.bodies.push none⟩

/-- Write down the body of a handle. -/
def define (rules : Rules) (handle : Handle) (body : Parser) : Rules :=
  ⟨rules.bodies.setIfInBounds handle (some body)⟩

/-- The body of a handle, if it is there. -/
def body? (rules : Rules) (handle : Handle) : Option Parser := (rules.bodies[handle]?).join

/-! ## What the table holds -/

theorem body?_reserve (rules : Rules) (handle : Handle) :
    rules.reserve.body? handle = rules.body? handle := by
  simp only [body?, reserve, Array.getElem?_push]
  split
  · next h => subst h; simp
  · rfl

theorem body?_define_self {rules : Rules} {handle : Handle} {body : Parser}
    (h : handle < rules.nextHandle) : (rules.define handle body).body? handle = some body := by
  simp only [nextHandle] at h
  simp [body?, define, h]

theorem body?_define_of_ne {rules : Rules} {handle other : Handle} {body : Parser}
    (h : handle ≠ other) : (rules.define handle body).body? other = rules.body? other := by
  simp [body?, define, h]

end Rules

end Backtrack
