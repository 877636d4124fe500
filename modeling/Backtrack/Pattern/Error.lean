-- What can be wrong with a written pattern. A cause says what was met, and an
-- error adds the place where it was met.
import Backtrack.Text.Quoted

namespace Backtrack.Pattern

/-! ## Causes -/

/-- Why a written pattern is no pattern. -/
inductive Cause where
  | unclosedGroup
  | unopenedGroup
  | unclosedComment
  | unclosedSet
  | endsInEscape
  | badEscape (text : String)
  | incompleteEscape (text : String)
  | octalTooLarge (text : String)
  | nothingToRepeat
  | repeatedRepeat
  | leastAboveMost
  | badRange (first last : String)
  | endsEarly
  | unknownExtension (text : String)
  | unknownFlag
  | unclosedFlags
  | misplacedFlags
  | localeFlag
  | clashingFlags
  | fixedFlag
  | wholeFlag
  | wholeFlagOff
  | noFlag
  | unclosedFlagsOff
  | flagOnAndOff
  | missingGroupName
  | unclosedGroupName (closer : Char)
  | badGroupName (name : String)
  | takenGroupName (name : String) (group earlier : Nat)
  | unknownGroupName (name : String)
  | unknownGroup (number : Nat)
  | groupZero
  | thirdBranch
  | openGroup
  | groupOfSameLookBehind
  | varyingLookBehind
deriving DecidableEq, Repr

/-- The wording of a cause. -/
def Cause.wording : Cause → String
  | .unclosedGroup => "missing ), unterminated subpattern"
  | .unopenedGroup => "unbalanced parenthesis"
  | .unclosedComment => "missing ), unterminated comment"
  | .unclosedSet => "unterminated character set"
  | .endsInEscape => "bad escape (end of pattern)"
  | .badEscape text => "bad escape " ++ text
  | .incompleteEscape text => "incomplete escape " ++ text
  | .octalTooLarge text => "octal escape value " ++ text ++ " outside of range 0-0o377"
  | .nothingToRepeat => "nothing to repeat"
  | .repeatedRepeat => "multiple repeat"
  | .leastAboveMost => "min repeat greater than max repeat"
  | .badRange first last => "bad character range " ++ first ++ "-" ++ last
  | .endsEarly => "unexpected end of pattern"
  | .unknownExtension text => "unknown extension " ++ text
  | .unknownFlag => "unknown flag"
  | .unclosedFlags => "missing -, : or )"
  | .misplacedFlags => "global flags not at the start of the expression"
  | .localeFlag => "bad inline flags: cannot use 'L' flag with a str pattern"
  | .clashingFlags => "bad inline flags: flags 'a', 'u' and 'L' are incompatible"
  | .fixedFlag => "bad inline flags: cannot turn off flags 'a', 'u' and 'L'"
  | .wholeFlag => "bad inline flags: cannot turn on global flag"
  | .wholeFlagOff => "bad inline flags: cannot turn off global flag"
  | .noFlag => "missing flag"
  | .unclosedFlagsOff => "missing :"
  | .flagOnAndOff => "bad inline flags: flag turned on and off"
  | .missingGroupName => "missing group name"
  | .unclosedGroupName closer =>
    "missing " ++ String.singleton closer ++ ", unterminated name"
  | .badGroupName name => "bad character in group name " ++ quoted name
  | .takenGroupName name group earlier =>
    "redefinition of group name " ++ quoted name ++ " as group " ++ toString group
      ++ "; was group " ++ toString earlier
  | .unknownGroupName name => "unknown group name " ++ quoted name
  | .unknownGroup number => "invalid group reference " ++ toString number
  | .groupZero => "bad group number"
  | .thirdBranch => "conditional backref with more than two branches"
  | .openGroup => "cannot refer to an open group"
  | .groupOfSameLookBehind =>
    "cannot refer to group defined in the same lookbehind subpattern"
  | .varyingLookBehind => "look-behind requires fixed-width pattern"

/-! ## Errors -/

/-- A cause and where in the pattern it was met. A cause that concerns the pattern
as a whole has no place. -/
structure Error where
  cause : Cause
  place : Option Nat
deriving DecidableEq, Repr

/-- The line and the column of a place. The line is counted from 1, and the
column tells how far behind the last line feed the place is. -/
def lineAndColumn (source : List Char) (place : Nat) : Nat × Nat :=
  let before := source.take place
  (before.count '\n' + 1, (before.reverse.takeWhile (· ≠ '\n')).length + 1)

/-- The message of an error in a pattern. In a pattern of more than one line it
names the line and the column too. -/
def Error.message (source : String) (e : Error) : String :=
  match e.place with
  | none => e.cause.wording
  | some place =>
    let message := e.cause.wording ++ " at position " ++ toString place
    if '\n' ∈ source.toList then
      let (line, column) := lineAndColumn source.toList place
      message ++ " (line " ++ toString line ++ ", column " ++ toString column ++ ")"
    else message

end Backtrack.Pattern
