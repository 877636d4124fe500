-- The text that a parser reads, and the signed offsets into it. No offset is
-- refused: a negative one counts back from the end, and one that points
-- outside is moved to the nearer edge when characters are cut out.
namespace Backtrack

/-- A text is the list of its characters. -/
abbrev Text := List Char

namespace Text

/-! ## Offsets -/

/-- The place that a signed offset names, always between 0 and the length. -/
def place (text : Text) (offset : Int) : Nat :=
  min (if offset < 0 then offset + text.length else offset).toNat text.length

/-- What is left of the text from an offset on. -/
def remainder (text : Text) (offset : Int) : Text := text.drop (text.place offset)

/-- The characters between two offsets, none if they stand the wrong way round. -/
def between (text : Text) (start stop : Int) : Text :=
  (text.take (text.place stop)).drop (text.place start)

/-- The literal stands at the offset. Nothing stands beyond the end, not even
the empty literal. -/
def holds (text literal : Text) (offset : Int) : Bool :=
  decide (offset ≤ text.length) && literal.isPrefixOf (text.remainder offset)

/-! ## The rules of an offset -/

theorem place_ofNat {text : Text} {i : Nat} (h : i ≤ text.length) : text.place i = i := by
  simp only [place]
  split <;> omega

theorem remainder_ofNat (text : Text) (i : Nat) : text.remainder i = text.drop i := by
  rcases Nat.le_total i text.length with h | h
  · rw [remainder, place_ofNat h]
  · -- Beyond the end nothing is left.
    have hplace : text.place i = text.length := by
      simp only [place]
      split <;> omega
    rw [remainder, hplace, List.drop_length, List.drop_of_length_le h]

/-- From further on there is left what is left behind as many characters. -/
theorem remainder_add {text : Text} {offset : Int} (h : 0 ≤ offset) (n : Nat) :
    text.remainder (offset + n) = (text.remainder offset).drop n := by
  obtain ⟨i, rfl⟩ := Int.eq_ofNat_of_zero_le h
  rw [← Int.natCast_add, remainder_ofNat, remainder_ofNat, List.drop_drop]

theorem between_self (text : Text) (offset : Int) : text.between offset offset = [] := by
  simp [between]

end Text

end Backtrack
