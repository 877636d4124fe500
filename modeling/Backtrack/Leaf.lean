-- Leaves: the parsers without parts. A leaf makes exactly one attempt.
import Backtrack.Fault
import Backtrack.Outcome
import Backtrack.Pattern

namespace Backtrack

/-- A parser without parts. -/
inductive Leaf where
  /-- The literal stands at the offset. -/
  | string (literal : String)
  /-- The pattern matches what is left of the text, and the group took part. -/
  | regexp (pattern : Pattern) (group : Pattern.GroupRef)
  /-- The offset is the end of the text. -/
  | endOfText
  /-- Anything goes. -/
  | succeed (value : Value)
  /-- Nothing does. -/
  | fail (expect : String)

namespace Leaf

/-- The one attempt of a leaf at an offset. A pattern takes as many characters as
its group is long, wherever the group stands in the match. -/
def attempt (text : Text) (start : Int) : Leaf → Except Fault Outcome
  | string literal =>
    if text.holds literal.toList start then
      .ok (.success (start + literal.length) (.str literal))
    else .ok (.failure start ("string " ++ literal))
  | regexp pattern group =>
    match pattern.find group (text.remainder start) with
    | .taken found => .ok (.success (start + found.length) (.str (String.ofList found)))
    | .noMatch | .notTaken => .ok (.failure start ("match " ++ pattern.source))
    | .noSuchGroup => .error .noSuchGroup
  | endOfText =>
    if start = text.length then .ok (.success start .none)
    else .ok (.failure start "end of string")
  | succeed value => .ok (.success start value)
  | fail expect => .ok (.failure start expect)

/-! ## Leaves for common characters -/

/-- The whole of what a pattern matches. -/
def ofPattern (pattern : Pattern) : Leaf := regexp pattern (.number 0)

def letter : Leaf := ofPattern .letter
def letters : Leaf := ofPattern .letters
def digit : Leaf := ofPattern .digit
def digits : Leaf := ofPattern .digits
def whitespace : Leaf := ofPattern .whitespace
def anyChar : Leaf := ofPattern .anyChar
def allChars : Leaf := ofPattern .allChars

/-! ## Where an attempt ends -/

/-- A leaf that fails does so where it started. -/
theorem index_of_attempt_failure {text : Text} {start index : Int} {leaf : Leaf} {expect : String}
    (h : leaf.attempt text start = .ok (.failure index expect)) : index = start := by
  cases leaf with
  | string literal => simp only [attempt] at h; split at h <;> simp_all
  | regexp pattern group => simp only [attempt] at h; split at h <;> simp_all
  | endOfText => simp only [attempt] at h; split at h <;> simp_all
  | succeed value => simp [attempt] at h
  | fail e => simp_all [attempt]

end Leaf

end Backtrack
