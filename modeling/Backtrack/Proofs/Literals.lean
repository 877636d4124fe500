-- The law of literals in a row: they are taken exactly where the literal of all of them
-- together is taken, however that is cut. Carried by the places at which the cuts come to
-- stand: a literal begins what is left of a text exactly if its first piece does and its
-- second piece begins what is left behind the first.
import Backtrack.Proofs.Collected
import Backtrack.Proofs.Rows
import Mathlib.Order.Bounds.Defs

namespace Backtrack

/-! ## Pieces of a literal -/

namespace Text

variable {text first second literal : Text} {i : Int}

/-- From a start in the text, a literal stands where it begins what is left. -/
theorem holds_iff_isPrefix (h1 : i ≤ text.length) :
    text.holds literal i ↔ literal <+: text.remainder i := by
  simp only [holds, Bool.and_eq_true, decide_eq_true_eq, List.isPrefixOf_iff_prefix]
  exact and_iff_right h1

/-- Two pieces stand one behind the other if the second stands where the first ends. -/
theorem append_isPrefix_remainder (h0 : 0 ≤ i) : first ++ second <+: text.remainder i ↔
    first <+: text.remainder i ∧ second <+: text.remainder (i + first.length) := by
  rw [remainder_add h0]
  constructor
  · rintro ⟨rest, hrest⟩
    rw [← hrest, List.append_assoc, List.drop_left]
    exact ⟨List.prefix_append _ _, List.prefix_append _ _⟩
  · rintro ⟨⟨rest, hrest⟩, hsecond⟩
    rw [← hrest, List.drop_left] at hsecond
    rw [← hrest]
    exact (List.prefix_append_right_inj first).mpr hsecond

/-- A literal that begins what is left ends in the text. -/
theorem add_length_le_of_isPrefix (h1 : i ≤ text.length) (h : literal <+: text.remainder i) :
    i + literal.length ≤ text.length := by
  have hlength := h.length_le
  have hrest := text.add_length_remainder_le i
  omega

end Text

namespace Parser

variable (rules : Rules) {text : Text} {i : Int} (n : Nat) {literal : String}
  {literals before : List String} (after : List String)

/-! ## The script of literals in a row -/

theorem attempt_string_of_isPrefix (h1 : i ≤ text.length)
    (h : literal.toList <+: text.remainder i) :
    (Leaf.string literal).attempt text i = .ok (.success (i + literal.length) (.str literal)) := by
  simp only [Leaf.attempt, if_pos ((Text.holds_iff_isPrefix h1).mpr h)]

theorem attempt_string_of_not_isPrefix (h1 : i ≤ text.length)
    (h : ¬ literal.toList <+: text.remainder i) :
    (Leaf.string literal).attempt text i = .ok (.failure i ("string " ++ literal)) := by
  simp only [Leaf.attempt, if_neg (mt (Text.holds_iff_isPrefix h1).mp h)]

/-- The parts that literals are in a row. -/
def literalParts (rules : Rules) (text : Text) (n : Nat) (literals : List String) :
    List (Int → Script) :=
  (literals.map string).map fun p => p.script rules text n

theorem row_literalParts_cons (literal : String) :
    row (literalParts rules text n (literal :: literals)) i = (Script.ofResult ((Leaf.string literal).attempt text i)).expand
      (extended (row (literalParts rules text n literals))) := by
  rw [← script_leaf rules text n]
  rfl

/-- Literals that stand one behind the other are all taken. -/
theorem row_literals_of_isPrefix (h0 : 0 ≤ i) (h1 : i ≤ text.length)
    (h : (String.join literals).toList <+: text.remainder i) :
    row (literalParts rules text n literals) i =
      .single (.success (i + (String.join literals).length) (.list (literals.map .str))) := by
  induction literals generalizing i with
  | nil => simp [literalParts, row]
  | cons literal literals ih =>
    rw [String.join_cons, String.toList_append, Text.append_isPrefix_remainder h0] at h
    obtain ⟨hfirst, hlater⟩ := h
    have hend := Text.add_length_le_of_isPrefix h1 hfirst
    rw [String.length_toList] at hlater hend
    have hrest := ih (by omega) hend hlater
    rw [row_literalParts_cons, attempt_string_of_isPrefix h1 hfirst]
    refine (Script.single_expand _ _).trans ?_
    rw [extended, hrest, Script.single_expand, String.join_cons, String.length_append]
    simp [Outcome.consOnto, Int.add_assoc]

/-- The first literal that does not stand behind those before it is what fails. -/
theorem row_literals_of_not_isPrefix (h0 : 0 ≤ i) (h1 : i ≤ text.length)
    (hbefore : (String.join before).toList <+: text.remainder i)
    (h : ¬ literal.toList <+: text.remainder (i + (String.join before).length)) :
    row (literalParts rules text n (before ++ literal :: after)) i =
      .single (.failure (i + (String.join before).length) ("string " ++ literal)) := by
  have hend := Text.add_length_le_of_isPrefix h1 hbefore
  rw [String.length_toList] at hend
  have hparts : literalParts rules text n (before ++ literal :: after) =
      literalParts rules text n before ++ literalParts rules text n (literal :: after) := by
    simp [literalParts]
  rw [hparts, row_append, row_literals_of_isPrefix rules n h0 h1 hbefore, Script.single_expand,
    continued, row_literalParts_cons, attempt_string_of_not_isPrefix hend h]
  rfl

/-! ## The first literal that does not stand -/

/-- If the literals do not all stand one behind the other, there are a least number of them
that do not, and a last one among these. -/
theorem exists_least_not_isPrefix (h : ¬ (String.join literals).toList <+: text.remainder i) :
    ∃ k literal, literals[k]? = some literal ∧
      IsLeast {m | ¬ (String.join (literals.take m)).toList <+: text.remainder i} (k + 1) := by
  classical
  have hsome : ∃ m, ¬ (String.join (literals.take m)).toList <+: text.remainder i :=
    ⟨literals.length, by rwa [List.take_length]⟩
  obtain ⟨k, hk⟩ : ∃ k, Nat.find hsome = k + 1 := by
    apply Nat.exists_eq_succ_of_ne_zero
    intro hzero
    exact (Nat.find_eq_zero hsome).mp hzero (List.nil_prefix)
  have hle : k + 1 ≤ literals.length := hk ▸ Nat.find_min' hsome (by rwa [List.take_length])
  exact ⟨k, literals[k], List.getElem?_eq_getElem hle, hk ▸ Nat.isLeast_find hsome⟩

/-- The literals before the first that does not stand are taken, and that one fails behind
them. -/
theorem row_literals_of_isLeast (h0 : 0 ≤ i) (h1 : i ≤ text.length) {k : Nat}
    (hliteral : literals[k]? = some literal)
    (h : IsLeast {m | ¬ (String.join (literals.take m)).toList <+: text.remainder i} (k + 1)) :
    row (literalParts rules text n literals) i =
      .single (.failure (i + (String.join (literals.take k)).length) ("string " ++ literal)) := by
  obtain ⟨hlt, rfl⟩ := List.getElem?_eq_some_iff.mp hliteral
  have hbefore : (String.join (literals.take k)).toList <+: text.remainder i := by
    by_contra hnot
    exact absurd (h.2 hnot) (by omega)
  have hfails := h.1
  rw [Set.mem_ofPred_eq, List.take_succ_eq_append_getElem hlt, String.join_append,
    String.toList_append, Text.append_isPrefix_remainder h0, String.length_toList] at hfails
  have hcut : literals = literals.take k ++ literals[k] :: literals.drop (k + 1) := by simp
  have hlast :
      ¬ literals[k].toList <+: text.remainder (i + (String.join (literals.take k)).length) := by
    intro hlast
    exact hfails ⟨hbefore, by simpa using hlast⟩
  have hrow := row_literals_of_not_isPrefix rules n (literals.drop (k + 1)) h0 h1 hbefore hlast
  rwa [← hcut] at hrow

/-! ## The law of literals -/

theorem exhausts_of_row_literals {o : Outcome}
    (h : row (literalParts rules text 0 literals) i = .single o) :
    (seq (literals.map string)).Exhausts rules text i [] [o] := by
  rw [exhausts_iff_holds]
  refine ⟨0, ?_⟩
  rw [script_seq]
  exact h ▸ ⟨trivial, rfl, rfl⟩

theorem exhausts_string_iff (h1 : i ≤ text.length) :
    (string literal).Exhausts rules text i [] [.success (i + literal.length) (.str literal)] ↔
      literal.toList <+: text.remainder i := by
  by_cases h : literal.toList <+: text.remainder i
  · have hattempt := attempt_string_of_isPrefix h1 h
    exact iff_of_true ((exhausts_leaf_iff hattempt).mpr ⟨rfl, rfl⟩) h
  · have hattempt := attempt_string_of_not_isPrefix h1 h
    refine iff_of_false (fun hexhausts => ?_) h
    cases ((exhausts_leaf_iff hattempt).mp hexhausts).2

/-- Literals in a row have one outcome. It is the success that takes all of them, with the
list of them, exactly if the literal of all of them together is taken, up to the same end.
Otherwise it is the failure of the last of the fewest that do not stand one behind the
other, at the end of those before it and with its own description. -/
theorem literals_in_a_row_are_one_literal (rules : Rules) {text : Text} {i : Int} (h0 : 0 ≤ i)
    (h1 : i ≤ text.length) (literals : List String) :
    let whole := String.join literals
    let allTaken := Outcome.success (i + whole.length) (.list (literals.map .str))
    ∃ o, (seq (literals.map string)).Exhausts rules text i [] [o] ∧
      (o = allTaken ↔
        (string whole).Exhausts rules text i [] [.success (i + whole.length) (.str whole)]) ∧
      (o ≠ allTaken → ∃ k literal, literals[k]? = some literal ∧
        IsLeast {m | ¬ (String.join (literals.take m)).toList <+: text.remainder i} (k + 1) ∧
        o = .failure (i + (String.join (literals.take k)).length) ("string " ++ literal)) := by
  intro whole allTaken
  have hwhole := @exhausts_string_iff rules text i whole h1
  by_cases h : whole.toList <+: text.remainder i
  · have hrow := row_literals_of_isPrefix rules 0 h0 h1 h
    exact ⟨allTaken, exhausts_of_row_literals rules hrow, iff_of_true rfl (hwhole.mpr h),
      fun hne => absurd rfl hne⟩
  · obtain ⟨k, literal, hliteral, hleast⟩ := exists_least_not_isPrefix h
    have hrow := row_literals_of_isLeast rules 0 h0 h1 hliteral hleast
    refine ⟨_, exhausts_of_row_literals rules hrow, ?_, ?_⟩
    · exact iff_of_false Outcome.noConfusion (mt hwhole.mp h)
    · exact fun _ => ⟨k, literal, hliteral, hleast, rfl⟩

/-- Behind a character, an empty literal and another one are taken, and the third one runs
past the end of the text. -/
theorem third_literal_runs_past_the_end :
    let text : Text := ['x', 'a', 'b']
    let literals := ["", "a", "bc", "d"]
    (0 : Int) ≤ 1 ∧ (1 : Int) ≤ text.length ∧
      (seq (literals.map string)).Exhausts .empty text 1 [] [.failure 2 "string bc"] := by
  intro text literals
  have h0 : (0 : Int) ≤ 1 := by decide
  have h1 : (1 : Int) ≤ text.length := by decide
  refine ⟨h0, h1, ?_⟩
  obtain ⟨o, hexhausts, hall, hfails⟩ := literals_in_a_row_are_one_literal .empty h0 h1 literals
  have hnot : ¬ (String.join literals).toList <+: text.remainder 1 := by decide
  obtain ⟨k, literal, hliteral, hleast, rfl⟩ :=
    hfails fun hsame => hnot ((exhausts_string_iff .empty h1).mp (hall.mp hsame))
  have hthird : IsLeast {m | ¬ (String.join (literals.take m)).toList <+: text.remainder 1} 3 := by
    constructor
    · decide
    · intro m hm
      by_contra hlt
      have hfew : ∀ m < 3, (String.join (literals.take m)).toList <+: text.remainder 1 := by decide
      exact hm (hfew m (by omega))
  obtain rfl : k = 2 := Nat.succ_injective (hleast.unique hthird)
  have hstop : ((String.join (literals.take 2)).length : Int) = 1 := by decide
  have hsource : "string " ++ literal = "string bc" := by
    cases hliteral
    decide
  rw [hstop, hsource] at hexhausts
  exact hexhausts

end Parser

end Backtrack
