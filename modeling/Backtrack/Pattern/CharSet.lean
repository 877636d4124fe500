-- The sets of characters in a pattern: ranges and classes, their complement,
-- and the rule by which letters of another case are let in.
import Backtrack.Text.Blank
import Backtrack.Text.LetterCase
import Backtrack.Text.Word

namespace Backtrack.Pattern

/-! ## Classes -/

/-- The named classes. Each is there for the characters of all scripts and for those of
ASCII alone. -/
inductive CharClass where
  | digit
  | asciiDigit
  | word
  | asciiWord
  | blank
  | asciiBlank
deriving DecidableEq, Repr

/-- The class holds the character. -/
def CharClass.holds : CharClass → Char → Bool
  | .digit, c => isDecimal c
  | .asciiDigit, c => c.isDigit
  | .word, c => isWordChar c
  | .asciiWord, c => c.isAlphanum || c == '_'
  | .blank, c => isBlank c
  | .asciiBlank, c => c == ' ' || ('\t' ≤ c && c ≤ '\r')

/-- Of the characters of ASCII, the classes of all scripts hold the same digits and the same
word characters. -/
theorem CharClass.holds_of_ascii {c : Char} (h : c.toNat < 128) :
    digit.holds c = asciiDigit.holds c ∧ word.holds c = asciiWord.holds c := by
  have hall : ∀ n < 128, digit.holds (Char.ofNat n) = asciiDigit.holds (Char.ofNat n) ∧
      word.holds (Char.ofNat n) = asciiWord.holds (Char.ofNat n) := by
    decide +kernel
  have hc := hall c.toNat h
  rwa [Char.ofNat_toNat] at hc

/-! ## Letters of another case -/

/-- Which characters count as the same letter. -/
inductive CaseRule where
  | exact
  | ascii
  | allScripts
deriving DecidableEq, Repr

/-- The small letter of an ASCII capital, and every other code point itself. -/
def asciiSmall (code : Nat) : Nat := if 0x41 ≤ code ∧ code ≤ 0x5A then code + 32 else code

/-- All code points that count as the given one. -/
def CaseRule.cases : CaseRule → Nat → List Nat
  | .exact, code => [code]
  | .ascii, code =>
    let small := asciiSmall code
    if 0x61 ≤ small ∧ small ≤ 0x7A then [small, small - 32] else [code]
  | .allScripts, code => casesOf code

/-- The code point that stands for the character when repeated text is compared. -/
def CaseRule.small : CaseRule → Nat → Nat
  | .exact, code => code
  | .ascii, code => asciiSmall code
  | .allScripts, code => smallLetter code

/-! ## Sets -/

/-- One part of a set: the code points from one to another, or a class or its
complement. -/
inductive SetItem where
  | range (first last : Nat)
  | category (kind : CharClass) (inverted : Bool)
deriving DecidableEq, Repr

/-- The part lets the character in. -/
def SetItem.covers (rule : CaseRule) (c : Char) : SetItem → Bool
  | .range first last => (rule.cases c.toNat).any fun n => first ≤ n && n ≤ last
  | .category kind inverted => kind.holds c != inverted

/-- A set of characters: what one of the parts lets in, or all that none lets in. -/
structure CharSet where
  items : List SetItem
  inverted : Bool := false
  caseRule : CaseRule := .exact
deriving DecidableEq, Repr

/-- The character is in the set. -/
def CharSet.accepts (set : CharSet) (c : Char) : Bool :=
  set.items.any (·.covers set.caseRule c) != set.inverted

namespace CharSet

/-- The set of one code point. -/
def single (code : Nat) (rule : CaseRule) : CharSet :=
  { items := [.range code code], caseRule := rule }

/-- The set of all characters. -/
def all : CharSet := { items := [], inverted := true }

/-- The set of all characters that do not break a line. -/
def allButLineFeed : CharSet := { items := [.range 10 10], inverted := true }

theorem accepts_allButLineFeed (c : Char) : allButLineFeed.accepts c ↔ c ≠ '\n' := by
  have hn : c = '\n' ↔ c.toNat = 10 := by
    rw [← Char.toNat_inj]; rfl
  simp only [accepts, allButLineFeed, List.any_cons, List.any_nil, SetItem.covers, CaseRule.cases,
    Bool.or_false, bne_iff_ne, ne_eq, hn, Bool.and_eq_true, decide_eq_true_eq]
  omega

end CharSet

end Backtrack.Pattern
