-- The quoted form of a string, as reports and messages show it. Quotes that
-- the string holds itself, the escape mark and the control characters are
-- escaped, and every other character stands for itself.
namespace Backtrack

/-! ## One character -/

/-- The two hexadecimal digits of a code below 256. -/
def twoHexDigits (code : Nat) : List Char :=
  [Nat.digitChar (code / 16 % 16), Nat.digitChar (code % 16)]

/-- The written form of one character between the given quotes. -/
def quotedChar (quote c : Char) : List Char :=
  if c = '\\' ∨ c = quote then ['\\', c]
  else if c = '\t' then ['\\', 't']
  else if c = '\n' then ['\\', 'n']
  else if c = '\r' then ['\\', 'r']
  else if c.toNat < 0x20 ∨ c.toNat = 0x7F then '\\' :: 'x' :: twoHexDigits c.toNat
  else [c]

/-! ## A string -/

/-- The quote of a string: the single quote, or the double quote if that spares
an escape. -/
def quoteOf (cs : List Char) : Char :=
  if '\'' ∈ cs ∧ '"' ∉ cs then '"' else '\''

/-- The quoted form of a string. -/
def quoted (s : String) : String :=
  let cs := s.toList
  let quote := quoteOf cs
  String.ofList (quote :: cs.flatMap (quotedChar quote) ++ [quote])

end Backtrack
