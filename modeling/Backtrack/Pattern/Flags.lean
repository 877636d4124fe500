-- The flags of a pattern, which change how its parts are read.
import Backtrack.Pattern.CharSet

namespace Backtrack.Pattern

/-- The flags of a pattern. -/
structure Flags where
  ignoreCase : Bool := false
  dotAll : Bool := false
  multiLine : Bool := false
  verbose : Bool := false
  ascii : Bool := false
deriving DecidableEq, Repr

namespace Flags

/-- The letters that stand for flags. The flag `t` changes nothing, and `L` is not for texts. -/
def letters : List Char := ['i', 'L', 'm', 's', 'x', 'a', 't', 'u']

/-- The flags with the one of a letter turned on. The flag `u` takes that of `a` back. -/
def turnOn (flags : Flags) : Char → Flags
  | 'i' => { flags with ignoreCase := true }
  | 's' => { flags with dotAll := true }
  | 'm' => { flags with multiLine := true }
  | 'x' => { flags with verbose := true }
  | 'a' => { flags with ascii := true }
  | 'u' => { flags with ascii := false }
  | _ => flags

/-- The flags with the one of a letter turned off. -/
def turnOff (flags : Flags) : Char → Flags
  | 'i' => { flags with ignoreCase := false }
  | 's' => { flags with dotAll := false }
  | 'm' => { flags with multiLine := false }
  | 'x' => { flags with verbose := false }
  | _ => flags

/-- The flags that a string of letters sets. Letters that name no flag set none. -/
def ofLetters (letters : String) : Flags := letters.toList.foldl turnOn {}

/-- Which characters count as the same letter under the flags. -/
def caseRule (flags : Flags) : CaseRule :=
  if flags.ignoreCase then (if flags.ascii then .ascii else .allScripts) else .exact

/-- The digits under the flags. -/
def digitClass (flags : Flags) : CharClass := if flags.ascii then .asciiDigit else .digit

/-- The word characters under the flags. -/
def wordClass (flags : Flags) : CharClass := if flags.ascii then .asciiWord else .word

/-- The blank characters under the flags. -/
def blankClass (flags : Flags) : CharClass := if flags.ascii then .asciiBlank else .blank

end Flags

end Backtrack.Pattern
