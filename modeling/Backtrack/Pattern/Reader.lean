-- Reading a written pattern. The reader goes over the tokens once and keeps
-- the groups that are still open on a stack. An escape mark that ends the
-- pattern is an error as soon as it stands next, before what precedes it is
-- looked at any further. Left out are characters written by their names, which
-- are refused as escapes of no meaning, and numbers of groups that are written
-- otherwise than in plain digits.
import Backtrack.Pattern.Error
import Backtrack.Pattern.Flags
import Backtrack.Pattern.Regex
import Backtrack.Pattern.Token

namespace Backtrack.Pattern

/-! ## What has been read -/

/-- What a repetition mark behind a part means for it. -/
inductive Role where
  | ordinary
  | anchor
  | repetition
deriving DecidableEq, Repr

/-- A part of a sequence. -/
structure Part where
  regex : Regex
  role : Role := .ordinary

/-- What an open group becomes when it is closed. A group with flags of its own remembers
those around it, and a look behind how many groups its surroundings let it refer to. -/
inductive FrameKind where
  | whole
  | plain
  | flagged (outerFlags : Flags)
  | atomic
  | conditional (number : Nat)
  | capture (number : Nat)
  | ahead (wanted : Bool)
  | behind (wanted : Bool) (outerLimit : Option Nat)

/-- An open group: where it starts, the choices read so far and the parts of the
choice being read, both last first. -/
structure Frame where
  kind : FrameKind
  start : Nat
  choices : List Regex := []
  parts : List Part := []

/-- The tree of the choice being read. -/
def Frame.current (f : Frame) : Regex := .sequence (f.parts.reverse.map (·.regex))

/-- The tree of all that an open group holds. -/
def Frame.regex (f : Frame) : Regex := .choices (f.choices.reverse ++ [f.current])

/-- The group has both its branches and cannot have another one. -/
def Frame.hasBranches (f : Frame) : Bool :=
  match f.kind with
  | .conditional _ => !f.choices.isEmpty
  | _ => false

/-- The tree of a conditional, whose second branch may be left out. -/
def Frame.branches (f : Frame) (number : Nat) : Regex :=
  match f.choices with
  | [] => .conditional number f.current .empty
  | present :: _ => .conditional number present f.current

/-- How far a pattern has been read. -/
structure Reader where
  tokens : List Token
  place : Nat := 0
  flags : Flags
  /-- The groups opened so far. -/
  groups : Nat := 0
  names : List (String × Nat) := []
  /-- The widths of the groups closed so far. -/
  widths : List (Nat × Width) := []
  /-- Inside a look behind, the last group that may be referred to. -/
  limit : Option Nat := none
  /-- The groups that conditionals name by their numbers, and where, newest first. -/
  awaited : List (Nat × Nat) := []
  /-- A look behind has been met whose width is not fixed. -/
  varying : Bool := false
  frame : Frame := ⟨.whole, 0, [], []⟩
  outer : List Frame := []

/-- A step of reading. -/
abbrev Read := StateT Reader (Except Error)

namespace Read

/-! ## Tokens -/

def fail {α : Type} (cause : Cause) (place : Nat) : Read α := throw ⟨cause, some place⟩

/-- The place of the next token. -/
def here : Read Nat := return (← get).place

/-- The number of tokens left. -/
def left : Read Nat := return (← get).tokens.length

def peek : Read (Option Token) := return (← get).tokens.head?

/-- Refuse an escape mark that ends the pattern. -/
def refuseDangling : Read Unit := do
  if (← peek) = some .danglingEscape then fail .endsInEscape (← here)

/-- Go on to the next token. -/
def advance : Read Unit := do
  let s ← get
  match s.tokens with
  | [] => return
  | t :: rest =>
    set { s with tokens := rest, place := s.place + t.width }
    refuseDangling

def take : Read (Option Token) := do
  let t ← peek
  advance
  return t

/-- Go past a character if it stands next. -/
def accept (c : Char) : Read Bool := do
  if (← peek) = some (.plain c) then
    advance
    return true
  else return false

/-- The characters of a kind that stand next, up to a number of them. -/
def takeWhile (kind : Char → Bool) : Nat → Read (List Char)
  | 0 => return []
  | n + 1 => do
    match ← peek with
    | some (.plain c) =>
      if kind c then
        advance
        return c :: (← takeWhile kind n)
      else return []
    | _ => return []

/-- Go past a character and all before it. Tells whether it was found among the
given number of tokens. -/
def skipPast (c : Char) : Nat → Read Bool
  | 0 => return false
  | n + 1 => do
    match ← take with
    | none => return false
    | some t => if t = .plain c then return true else skipPast c n

/-! ## Numbers and names -/

def isOctal (c : Char) : Bool := '0' ≤ c && c ≤ '7'

def isHex (c : Char) : Bool := c.isDigit || ('a' ≤ c && c ≤ 'f') || ('A' ≤ c && c ≤ 'F')

/-- The value of a hexadecimal digit, and of any other digit. -/
def digitValue (c : Char) : Nat :=
  if c.isDigit then c.toNat - 48
  else if 'a' ≤ c then c.toNat - 87
  else c.toNat - 55

def valueIn (base : Nat) (digits : List Char) : Nat :=
  digits.foldl (fun n c => n * base + digitValue c) 0

/-- A name is a letter or an underscore and then word characters. Characters
beyond ASCII count as letters. -/
def isName (name : List Char) : Bool :=
  let isLetter := fun (c : Char) => c.isAlpha || c == '_' || 128 ≤ c.toNat
  match name with
  | [] => false
  | c :: rest => isLetter c && rest.all fun d => isLetter d || d.isDigit

/-- The characters up to a closer, which is passed over. -/
def takeUntil (closer : Char) : Nat → List Char → Read (List Char)
  | 0, found => return found
  | n + 1, found => do
    match ← take with
    | none =>
      if found.isEmpty then fail .missingGroupName (← here)
      else fail (.unclosedGroupName closer) ((← here) - found.length)
    | some t =>
      if t = .plain closer then
        if found.isEmpty then fail .missingGroupName ((← here) - 1)
        return found
      else takeUntil closer n (found ++ t.chars)

/-- The name of a group, up to its closer. -/
def groupName (closer : Char) : Read String := do
  let name ← takeUntil closer ((← left) + 1) []
  let text := String.ofList name
  if !isName name then fail (.badGroupName text) ((← here) - (name.length + 1))
  return text

/-! ## Parts -/

def addPart (regex : Regex) (role : Role := .ordinary) : Read Unit :=
  modify fun s => { s with frame := { s.frame with parts := ⟨regex, role⟩ :: s.frame.parts } }

def addSet (items : List SetItem) (inverted : Bool) : Read Unit := do
  addPart (.one ⟨items, inverted, (← get).flags.caseRule⟩)

def addCode (code : Nat) : Read Unit := addSet [.range code code] false

/-- Refuse a group that the look behind around it may not refer to. -/
def refuseBeyondLimit (number : Nat) : Read Unit := do
  if (← get).limit.any (· < number) then fail .groupOfSameLookBehind (← here)

/-- Add a reference to what a group matched. The reference starts at `start`. -/
def addReference (number start : Nat) : Read Unit := do
  let s ← get
  if (s.widths.lookup number).isNone then fail .openGroup start
  refuseBeyondLimit number
  addPart (.again number s.flags.caseRule)

/-! ## Escapes -/

/-- The code of an escaped control character. -/
def controlCode? : Char → Option Nat
  | 'a' => some 7
  | 'b' => some 8
  | 't' => some 9
  | 'n' => some 10
  | 'v' => some 11
  | 'f' => some 12
  | 'r' => some 13
  | _ => none

/-- The class that an escaped letter names. -/
def class? (flags : Flags) : Char → Option SetItem
  | 'd' => some (.category flags.digitClass false)
  | 'D' => some (.category flags.digitClass true)
  | 's' => some (.category flags.blankClass false)
  | 'S' => some (.category flags.blankClass true)
  | 'w' => some (.category flags.wordClass false)
  | 'W' => some (.category flags.wordClass true)
  | _ => none

/-- The condition that an escaped letter names. -/
def anchor? (flags : Flags) : Char → Option Anchor
  | 'A' => some .textStart
  | 'Z' => some .textEnd
  | 'b' => some (.wordEdge flags.wordClass)
  | 'B' => some (.noWordEdge flags.wordClass)
  | _ => none

/-- The number of hexadecimal digits that an escaped letter asks for. -/
def hexDigits? : Char → Option Nat
  | 'x' => some 2
  | 'u' => some 4
  | 'U' => some 8
  | _ => none

def escapeText (cs : List Char) : String := String.ofList ('\\' :: cs)

/-- The code written by hexadecimal digits behind an escaped letter. -/
def hexCode (letter : Char) (count start : Nat) : Read Nat := do
  let digits ← takeWhile isHex count
  if digits.length < count then fail (.incompleteEscape (escapeText (letter :: digits))) start
  let code := valueIn 16 digits
  if 0x10FFFF < code then fail (.badEscape (escapeText (letter :: digits))) start
  return code

/-- The code written by octal digits. -/
def octalCode (digits : List Char) (start : Nat) : Read Nat := do
  let code := valueIn 8 digits
  if 0o377 < code then fail (.octalTooLarge (escapeText digits)) start
  return code

/-- An escaped digit other than zero: three octal digits are a code, and every
other number refers to a group. -/
def numberEscape (c : Char) (start : Nat) : Read Unit := do
  let second ← takeWhile Char.isDigit 1
  let third ← if isOctal c && !second.isEmpty && second.all isOctal
    then takeWhile isOctal 1 else pure []
  if !third.isEmpty then addCode (← octalCode (c :: second ++ third) start)
  else
    let number := valueIn 10 (c :: second)
    if number ≤ (← get).groups then addReference number start
    else fail (.unknownGroup number) (start + 1)

/-- An escaped character outside a set. -/
def escape (c : Char) (start : Nat) : Read Unit := do
  if let some a := anchor? (← get).flags c then addPart (.anchor a) .anchor
  else if let some item := class? (← get).flags c then addSet [item] false
  else if let some code := controlCode? c then addCode code
  else if let some count := hexDigits? c then addCode (← hexCode c count start)
  else if c = '0' then addCode (← octalCode (c :: (← takeWhile isOctal 2)) start)
  else if c.isDigit then numberEscape c start
  else if c.isAlpha then fail (.badEscape (escapeText [c])) start
  else addCode c.toNat

/-- An escaped character inside a set. -/
def setEscape (c : Char) (start : Nat) : Read SetItem := do
  let single := fun (code : Nat) => SetItem.range code code
  if let some item := class? (← get).flags c then return item
  else if let some code := controlCode? c then return single code
  else if let some count := hexDigits? c then return single (← hexCode c count start)
  else if isOctal c then return single (← octalCode (c :: (← takeWhile isOctal 2)) start)
  else if c.isAlphanum then fail (.badEscape (escapeText [c])) start
  else return single c.toNat

/-! ## Sets -/

/-- A token inside a set. -/
def setAtom : Token → Read SetItem
  | .plain c => return .range c.toNat c.toNat
  | .escaped c => do setEscape c ((← here) - 2)
  | .danglingEscape => do fail .endsInEscape (← here)

/-- The range between two tokens of a set. -/
def setRange (first last : Token) (a b : SetItem) : Read SetItem := do
  let place := (← here) - (first.width + 1 + last.width)
  match a, b with
  | .range low _, .range high _ =>
    if high < low then fail (.badRange first.text last.text) place
    return .range low high
  | _, _ => fail (.badRange first.text last.text) place

/-- The parts of a set up to its closing bracket. A bracket that stands first is
a part of the set, and so is a dash that stands last. -/
def setItems (start : Nat) : Nat → List SetItem → Read (List SetItem)
  | 0, _ => fail .unclosedSet start
  | n + 1, found => do
    match ← take with
    | none => fail .unclosedSet start
    | some first =>
      if first = .plain ']' ∧ !found.isEmpty then return found
      let a ← setAtom first
      if ← accept '-' then
        match ← take with
        | none => fail .unclosedSet start
        | some last =>
          if last = .plain ']' then return found ++ [a, .range 45 45]
          let b ← setAtom last
          let range ← setRange first last a b
          setItems start n (found ++ [range])
      else setItems start n (found ++ [a])

/-- A set, whose opening bracket stood at `start`. -/
def set (start : Nat) : Read Unit := do
  let inverted ← accept '^'
  addSet (← setItems start (← left) []) inverted

/-! ## Repetitions -/

/-- The bounds written in braces. Braces that hold no bounds are ordinary
characters, and then the reader stays where it was. -/
def braceBounds? (start : Nat) : Read (Option (Nat × Option Nat)) := do
  if (← peek) = some (.plain '}') then return none
  let before ← get
  let low ← takeWhile Char.isDigit (← left)
  let high ← if ← accept ',' then takeWhile Char.isDigit (← left) else pure low
  if ← accept '}' then
    let least := valueIn 10 low
    if high.isEmpty then return some (least, none)
    let most := valueIn 10 high
    if most < least then fail .leastAboveMost (start + 1)
    return some (least, some most)
  else
    modify fun _ => before
    return none

/-- A tree repeated as the mark behind the bounds asks for. -/
def repetitionOf (r : Regex) (least : Nat) (most : Option Nat) : Read Regex := do
  if ← accept '?' then return .repetition r least most false
  if ← accept '+' then return .possessive r least most
  return .repetition r least most true

/-- Repeat the last part. The repetition mark stood at `start`. -/
def repeatLast (least : Nat) (most : Option Nat) (start : Nat) : Read Unit := do
  match (← get).frame.parts with
  | [] => fail .nothingToRepeat start
  | last :: others =>
    match last.role with
    | .anchor => fail .nothingToRepeat start
    | .repetition => fail .repeatedRepeat start
    | .ordinary =>
      let regex ← repetitionOf last.regex least most
      modify fun s => { s with frame := { s.frame with parts := ⟨regex, .repetition⟩ :: others } }

/-! ## Groups -/

/-- Open a group. -/
def openFrame (kind : FrameKind) (start : Nat) : Read Unit :=
  modify fun s => { s with frame := ⟨kind, start, [], []⟩, outer := s.frame :: s.outer }

/-- Open a group that remembers what it matches. -/
def openCapture (name? : Option String) (start : Nat) : Read Unit := do
  let number := (← get).groups + 1
  if let some name := name? then
    if let some earlier := (← get).names.lookup name then
      fail (.takenGroupName name number earlier) ((← here) - (name.length + 1))
    modify fun s => { s with names := (name, number) :: s.names }
  modify fun s => { s with groups := number }
  openFrame (.capture number) start

/-- Open a look behind. -/
def openBehind (wanted : Bool) (start : Nat) : Read Unit := do
  let outerLimit := (← get).limit
  modify fun s => { s with limit := outerLimit.or (some s.groups) }
  openFrame (.behind wanted outerLimit) start

/-- Close the innermost group and add it to the one around it. -/
def closeFrame : Read Unit := do
  let s ← get
  match s.outer with
  | [] => fail .unopenedGroup s.place
  | frame :: outer =>
    let regex := s.frame.regex
    let width := regex.width fun n => (s.widths.lookup n).getD (.exactly 0)
    modify fun s => { s with frame, outer }
    match s.frame.kind with
    | .whole | .plain => addPart regex
    | .flagged outerFlags =>
      modify fun s => { s with flags := outerFlags }
      addPart regex
    | .atomic => addPart (.atomic regex)
    | .conditional number => addPart (s.frame.branches number)
    | .capture number =>
      modify fun s => { s with widths := (number, width) :: s.widths }
      addPart (.group number regex)
    | .ahead wanted => addPart (.ahead regex wanted)
    | .behind wanted outerLimit =>
      modify fun s =>
        { s with limit := outerLimit, varying := s.varying || width.fixed?.isNone }
      addPart (.behind regex width.least wanted)

/-! ## Flags inside a pattern -/

/-- What is wrong with turning a flag on behind others. -/
def refusedOn (earlier : List Char) (c : Char) : Option Cause :=
  if c = 'L' then some .localeFlag
  else if (c = 'a' ∧ 'u' ∈ earlier) ∨ (c = 'u' ∧ 'a' ∈ earlier) then some .clashingFlags
  else none

/-- What is wrong with turning a flag off. -/
def refusedOff (_ : List Char) (c : Char) : Option Cause :=
  if c = 'L' ∨ c = 'a' ∨ c = 'u' then some .fixedFlag else none

/-- The letters of flags from one that was read up to a mark that ends them, newest first, and
the mark. -/
def flagLetters (refused : List Char → Char → Option Cause) (unclosed : Cause) (marks : List Char) :
    Nat → List Char → Char → Read (List Char × Char)
  | 0, _, _ => do fail unclosed (← here)
  | n + 1, earlier, c => do
    if let some cause := refused earlier c then fail cause (← here)
    match ← take with
    | none => fail unclosed (← here)
    | some t =>
      let place := (← here) - t.width
      match t with
      | .plain d =>
        if d ∈ marks then return (c :: earlier, d)
        else if d ∈ Flags.letters then flagLetters refused unclosed marks n (c :: earlier) d
        else fail (if d.isAlpha then .unknownFlag else unclosed) place
      | _ => fail unclosed place

/-- The letters of the flags that are turned off, behind a dash. -/
def flagsOff : Read (List Char) := do
  match ← take with
  | none => fail .noFlag (← here)
  | some t =>
    let place := (← here) - t.width
    match t with
    | .plain c =>
      if c ∈ Flags.letters then
        let (off, _) ← flagLetters refusedOff .unclosedFlagsOff [':'] ((← left) + 1) [] c
        return off
      else fail (if c.isAlpha then .unknownFlag else .noFlag) place
    | _ => fail .noFlag place

/-- Flags for the whole pattern, which stand before all else. -/
def wholeFlags (on : List Char) (start : Nat) : Read Unit := do
  let s ← get
  if !(s.outer.isEmpty && s.frame.choices.isEmpty && s.frame.parts.isEmpty) then
    fail .misplacedFlags start
  modify fun s => { s with flags := on.foldl Flags.turnOn s.flags }

/-- Flags for a group of their own, some turned on and others off. -/
def groupFlags (on off : List Char) (start : Nat) : Read Unit := do
  if 't' ∈ off then fail .wholeFlagOff ((← here) - 1)
  if on.any (· ∈ off) then fail .flagOnAndOff ((← here) - 1)
  let outerFlags := (← get).flags
  openFrame (.flagged outerFlags) start
  modify fun s => { s with flags := off.foldl Flags.turnOff (on.foldl Flags.turnOn outerFlags) }

/-- A group whose question mark is followed by a flag or a dash. -/
def flags (c : Char) (start : Nat) : Read Unit := do
  let (on, mark) ←
    if c = '-' then pure ([], '-')
    else flagLetters refusedOn .unclosedFlags [')', ':', '-'] ((← left) + 1) [] c
  if mark = ')' then wholeFlags on start
  else
    if 't' ∈ on then fail .wholeFlag ((← here) - 1)
    groupFlags on (← if mark = '-' then flagsOff else pure []) start

/-! ## Extensions -/

/-- A conditional, up to its first branch. It goes by a group that has a name, or by one that
may still be to come. -/
def conditional (start : Nat) : Read Unit := do
  let name ← takeUntil ')' ((← left) + 1) []
  let text := String.ofList name
  let place := (← here) - (name.length + 1)
  let number ←
    if isName name then
      match (← get).names.lookup text with
      | none => fail (.unknownGroupName text) place
      | some number => pure number
    else
      if !name.all Char.isDigit then fail (.badGroupName text) place
      let number := valueIn 10 name
      if number = 0 then fail .groupZero place
      modify fun s => { s with awaited := (number, place) :: s.awaited }
      pure number
  let s ← get
  if s.limit.isSome && (s.widths.lookup number).isNone then fail .openGroup (← here)
  refuseBeyondLimit number
  openFrame (.conditional number) start

/-- A group with a name, or a reference by name. -/
def namedGroup (start : Nat) : Read Unit := do
  if ← accept '<' then return ← openCapture (some (← groupName '>')) start
  if ← accept '=' then
    let name ← groupName ')'
    let place := (← here) - (name.length + 1)
    match (← get).names.lookup name with
    | none => fail (.unknownGroupName name) place
    | some number => addReference number place
  else
    match ← take with
    | none => fail .endsEarly (← here)
    | some t => fail (.unknownExtension ("?P" ++ t.text)) ((← here) - (t.width + 2))

/-- A group whose parenthesis is followed by a question mark. -/
def extension (start : Nat) : Read Unit := do
  match ← take with
  | none => fail .endsEarly (← here)
  | some (.plain 'P') => namedGroup start
  | some (.plain ':') => openFrame .plain start
  | some (.plain '>') => openFrame .atomic start
  | some (.plain '(') => conditional start
  | some (.plain '#') =>
    if !(← skipPast ')' (← left)) then fail .unclosedComment start
  | some (.plain '=') => openFrame (.ahead true) start
  | some (.plain '!') => openFrame (.ahead false) start
  | some (.plain '<') =>
    match ← take with
    | none => fail .endsEarly (← here)
    | some (.plain '=') => openBehind true start
    | some (.plain '!') => openBehind false start
    | some t => fail (.unknownExtension ("?<" ++ t.text)) ((← here) - (t.width + 2))
  | some t =>
    match t with
    | .plain c =>
      if c ∈ '-' :: Flags.letters then return ← flags c start
    | _ => pure ()
    fail (.unknownExtension ("?" ++ t.text)) ((← here) - (t.width + 1))

/-! ## The pattern -/

/-- A plain character. In a verbose pattern blanks and comments are left out. -/
def plainChar (c : Char) (start : Nat) : Read Unit := do
  let flags := (← get).flags
  if flags.verbose && CharClass.asciiBlank.holds c then return
  else if flags.verbose && c == '#' then discard (skipPast '\n' (← left))
  else
    match c with
    | '|' =>
      modify fun s =>
        { s with frame := { s.frame with choices := s.frame.current :: s.frame.choices, parts := [] } }
    | ')' => closeFrame
    | '[' => Read.set start
    | '(' => if ← accept '?' then extension start else openCapture none start
    | '.' => addPart (.one (if flags.dotAll then .all else .allButLineFeed))
    | '^' => addPart (.anchor (if flags.multiLine then .lineStart else .textStart)) .anchor
    | '$' => addPart (.anchor (if flags.multiLine then .lineEnd else .lastLineEnd)) .anchor
    | '*' => repeatLast 0 none start
    | '+' => repeatLast 1 none start
    | '?' => repeatLast 0 (some 1) start
    | '{' =>
      match ← braceBounds? start with
      | some (least, most) => repeatLast least most start
      | none => addCode c.toNat
    | _ => addCode c.toNat

/-- All the tokens, of which there are no more than the given number. -/
def parts : Nat → Read Unit
  | 0 => return
  | n + 1 => do
    let start ← here
    match ← peek with
    | none => return
    | some t =>
      if t = .plain ')' ∧ (← get).outer.isEmpty then fail .unopenedGroup start
      if t = .plain '|' ∧ (← get).frame.hasBranches then fail .thirdBranch start
      advance
      match t with
      | .plain c => plainChar c start
      | .escaped c => escape c start
      | .danglingEscape => fail .endsInEscape start
      parts n

/-- The whole pattern. -/
def whole : Read Regex := do
  refuseDangling
  parts (← left)
  let s ← get
  if !s.outer.isEmpty then fail .unclosedGroup s.frame.start
  if let some (number, place) := s.awaited.reverse.find? (s.groups < ·.1) then
    fail (.unknownGroup number) place
  if s.varying then throw ⟨.varyingLookBehind, none⟩
  return s.frame.regex

end Read

end Backtrack.Pattern
