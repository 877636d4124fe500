-- The tokens of a written pattern: single characters and escaped characters.
-- An escape mark at the very end escapes nothing, and is a token of its own.
namespace Backtrack.Pattern

/-- A token of a written pattern. -/
inductive Token where
  | plain (c : Char)
  | escaped (c : Char)
  | danglingEscape
deriving DecidableEq, Repr

namespace Token

/-- The tokens of a written pattern. -/
def scan : List Char → List Token
  | [] => []
  | ['\\'] => [danglingEscape]
  | '\\' :: c :: rest => escaped c :: scan rest
  | c :: rest => plain c :: scan rest

/-- The characters of a token. -/
def chars : Token → List Char
  | plain c => [c]
  | escaped c => ['\\', c]
  | danglingEscape => ['\\']

/-- The number of characters of a token. -/
def width (t : Token) : Nat := t.chars.length

/-- The characters of a token as a string. -/
def text (t : Token) : String := String.ofList t.chars

/-- The tokens of a pattern spell it out. -/
theorem flatMap_chars_scan (cs : List Char) : (scan cs).flatMap chars = cs := by
  fun_induction scan cs with
  | case1 => rfl
  | case2 => rfl
  | case3 c rest ih => simp [chars, ih]
  | case4 c rest _ _ ih => simp [chars, ih]

end Token

end Backtrack.Pattern
