-- Patterns: regular expressions with the groups that can be asked for, and the
-- text that a group takes in the first match.
import Backtrack.Pattern.Reader
import Backtrack.Pattern.Walk
import Backtrack.Text

namespace Backtrack

/-! ## Patterns -/

/-- A pattern as written, its tree, and its groups: how many there are and the
names that some of them have. -/
structure Pattern where
  source : String
  regex : Pattern.Regex
  groups : Nat := 0
  names : List (String × Nat) := []

namespace Pattern

/-- Read a written pattern. -/
def ofSource (source : String) (flags : Flags) : Except Error Pattern := do
  let start : Reader := { tokens := Token.scan source.toList, flags }
  let (regex, reader) ← Read.whole.run start
  return { source, regex, groups := reader.groups, names := reader.names }

/-! ## Groups -/

/-- A group by its number, where 0 stands for the whole match, or by its name. -/
inductive GroupRef where
  | number (n : Int)
  | name (s : String)
deriving DecidableEq, Repr

/-- The number of a group of the pattern. -/
def groupNumber? (p : Pattern) : GroupRef → Option Nat
  | .number n => if 0 ≤ n ∧ n ≤ p.groups then some n.toNat else none
  | .name s => p.names.lookup s

/-- Where a group starts and stops in a match that ends at the cursor. -/
def Cursor.span? (c : Cursor) : Nat → Option (Nat × Nat)
  | 0 => some (0, c.place)
  | n => c.captures.lookup n

/-- What the search for a group finds at the start of a text. -/
inductive Finding where
  | noMatch
  | noSuchGroup
  | notTaken
  | taken (text : Text)
deriving DecidableEq, Repr

/-- Match the pattern at the start of a text and ask for a group. Whether there
is such a group is asked only of a match. -/
def find (p : Pattern) (ref : GroupRef) (text : Text) : Finding :=
  match p.regex.first? text with
  | none => .noMatch
  | some c =>
    match p.groupNumber? ref with
    | none => .noSuchGroup
    | some n =>
      match c.span? n with
      | none => .notTaken
      | some (start, stop) => .taken ((text.take stop).drop start)

/-- The text of a group is never longer than the text that was searched. -/
theorem length_le_of_find {p : Pattern} {ref : GroupRef} {text found : Text}
    (h : p.find ref text = .taken found) : found.length ≤ text.length := by
  simp only [find] at h
  split at h
  · cases h
  · split at h
    · cases h
    · split at h
      · cases h
      · cases h
        simp only [List.length_drop, List.length_take]
        omega

/-- The whole of a match is what stands before the cursor. -/
theorem find_whole (p : Pattern) (text : Text) : p.find (.number 0) text =
    match p.regex.first? text with
    | none => .noMatch
    | some c => .taken (text.take c.place) := by
  have hgroup : p.groupNumber? (.number 0) = some 0 := by simp [groupNumber?]
  unfold find
  rw [hgroup]
  rfl

/-! ## Patterns for common characters -/

/-- The set of the code points between two characters. -/
def between (first last : Char) (rule : CaseRule := .exact) : CharSet :=
  { items := [.range first.toNat last.toNat], caseRule := rule }

/-- One character of a set. -/
def one (source : String) (set : CharSet) : Pattern := { source, regex := .one set }

/-- The longest run of characters of a set, of no fewer than the least length. -/
def run (source : String) (set : CharSet) (least : Nat) : Pattern :=
  { source, regex := .repetition (.one set) least none true }

/-- The letters from `a` to `z` in either case. -/
def letterSet : CharSet := between 'a' 'z' .allScripts

def digitSet : CharSet := between '0' '9'

def blankSet : CharSet := { items := [.category .blank false] }

def letter : Pattern := one "[a-z]" letterSet
def letters : Pattern := run "[a-z]+" letterSet 1
def digit : Pattern := one "[0-9]" digitSet
def digits : Pattern := run "[0-9]+" digitSet 1
def whitespace : Pattern := run "\\s+" blankSet 1
def anyChar : Pattern := one "." .allButLineFeed
def allChars : Pattern := run ".*" .allButLineFeed 0

end Pattern

end Backtrack
