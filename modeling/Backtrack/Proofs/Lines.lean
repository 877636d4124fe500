-- The law of positions: the line and the column of an offset lead back to its character.
-- The lines of a text and the ends of its breaks are two readings of the same breaks, so
-- the induction is on the text, and the line is counted along with the breaks passed.
import Backtrack.Text.Blank
import Backtrack.Text.Line
import Mathlib.Data.List.TakeWhile

namespace Backtrack

namespace Text

/-! ## Lines -/

/-- No line holds a break. -/
theorem not_break_of_mem_lines {text line : Text} (h : line ∈ text.lines) {c : Char} (hc : c ∈ line) :
    c ≠ '\r' ∧ c ≠ '\n' := by
  fun_induction Text.lines text generalizing line with
  | case1 => simp_all
  | case2 rest ih =>
    rcases List.mem_cons.mp h with rfl | h
    · cases hc
    · exact ih h hc
  | case3 c' rest _ hbreak ih =>
    rcases List.mem_cons.mp h with rfl | h
    · cases hc
    · exact ih h hc
  | case4 c' rest _ hbreak hnil ih => exact absurd hnil (lines_ne_nil rest)
  | case5 c' rest _ hbreak line' others hlines ih =>
    rw [hlines] at ih
    rcases List.mem_cons.mp h with rfl | h
    · rcases List.mem_cons.mp hc with rfl | hc
      · exact not_or.mp hbreak
      · exact ih List.mem_cons_self hc
    · exact ih (List.mem_cons_of_mem line' h) hc

/-! ## The character of a position -/

/-- A break of a text ends behind the start of the text. -/
theorem lt_of_mem_breakEnds {text : Text} {start stop : Nat} (h : stop ∈ text.breakEnds start) :
    start < stop := by
  fun_induction Text.breakEnds start text with
  | case1 => cases h
  | case2 start rest ih =>
    rcases List.mem_cons.mp h with rfl | h
    · omega
    · have := ih h
      omega
  | case3 start c rest _ hbreak ih =>
    rcases List.mem_cons.mp h with rfl | h
    · omega
    · exact Nat.lt_of_succ_lt (ih h)
  | case4 start c rest _ hbreak ih => exact Nat.lt_of_succ_lt (ih h)

/-- The ends of the breaks that an offset has passed. -/
def passed (ends : List Nat) (i : Nat) : List Nat := ends.takeWhile fun stop => decide (stop ≤ i)

theorem passed_cons_of_le {stop i : Nat} (h : stop ≤ i) (ends : List Nat) :
    passed (stop :: ends) i = stop :: passed ends i := by simp [passed, h]

theorem passed_eq_nil {ends : List Nat} {i : Nat} (h : ∀ stop ∈ ends, i < stop) :
    passed ends i = [] := by
  cases ends with
  | nil => rfl
  | cons stop ends =>
    have hstop := h stop List.mem_cons_self
    simp [passed, hstop]

/-- Where the line of an offset starts. -/
def lineStart (start : Nat) (passed : List Nat) : Nat := passed.getLast?.getD start

theorem lineStart_cons (start stop : Nat) (passed : List Nat) :
    lineStart start (stop :: passed) = lineStart stop passed := by
  simp [lineStart, List.getLast?_cons]

/-- In a text that begins at a start and has these lines and ends of breaks, the line of an
offset is counted by the breaks passed and its column from the end of the last of them. If
the offset stands in that line at all, its character stands there. -/
def LeadsBack (start i : Nat) (lines : List Text) (ends : List Nat) (text : Text) : Prop :=
  ∀ row, lines[(passed ends i).length]? = some row →
    i - lineStart start (passed ends i) < row.length →
    row[i - lineStart start (passed ends i)]? = text[i - start]?

variable {start i : Nat} {lines : List Text} {ends : List Nat} {text : Text}

/-- An offset inside a break stands in no line, and one behind it in a later one. -/
theorem LeadsBack.behind_break (brk : Text) (hends : ∀ stop ∈ ends, start + brk.length < stop)
    (h : start + brk.length ≤ i → LeadsBack (start + brk.length) i lines ends text) :
    LeadsBack start i ([] :: lines) ((start + brk.length) :: ends) (brk ++ text) := by
  intro row hline hin
  by_cases hi : start + brk.length ≤ i
  · rw [passed_cons_of_le hi] at hline
    rw [passed_cons_of_le hi, lineStart_cons] at hin ⊢
    rw [h hi row hline hin, List.getElem?_append_right (by omega)]
    congr 1
    omega
  · have hnone : passed ((start + brk.length) :: ends) i = [] := by
      refine passed_eq_nil fun stop hstop => ?_
      rcases List.mem_cons.mp hstop with rfl | hstop
      · omega
      · have := hends stop hstop
        omega
    rw [hnone] at hline
    cases hline
    cases hin

/-- A character that is no break stands in front of the first line. -/
theorem LeadsBack.cons {line : Text} (c : Char) (hi : start ≤ i) (hends : ∀ stop ∈ ends, start + 1 < stop)
    (h : start + 1 ≤ i → LeadsBack (start + 1) i (line :: lines) ends text) :
    LeadsBack start i ((c :: line) :: lines) ends (c :: text) := by
  intro row hline hin
  rcases Nat.eq_or_lt_of_le hi with rfl | hi
  · have hnone : passed ends start = [] := by
      refine passed_eq_nil fun stop hstop => ?_
      exact Nat.lt_of_succ_lt (hends stop hstop)
    rw [hnone] at hline ⊢
    cases hline
    simp [lineStart]
  · have hnext : i - start = i - (start + 1) + 1 := by omega
    have hrest := h hi
    unfold LeadsBack at hrest
    rcases hpassed : passed ends i with _ | ⟨stop, others⟩
    · rw [hpassed] at hline hin hrest
      cases hline
      have hin' : i - (start + 1) < line.length := by
        simp only [lineStart, List.getLast?_nil, Option.getD_none, List.length_cons] at hin
        omega
      simp only [lineStart, List.getLast?_nil, Option.getD_none]
      rw [hnext]
      exact hrest line rfl hin'
    · rw [hpassed] at hline hin hrest
      rw [hnext]
      exact hrest row hline hin

/-- The line and the column of an offset lead back to its character. -/
theorem leadsBack (text : Text) (hi : start ≤ i) :
    LeadsBack start i text.lines (text.breakEnds start) text := by
  fun_induction Text.lines text generalizing start with
  | case1 =>
    intro line hline hin
    cases hline
    cases hin
  | case2 rest ih => exact .behind_break ['\r', '\n'] (fun _ => lt_of_mem_breakEnds) fun h => ih h
  | case3 c rest hc hbreak ih =>
    rw [breakEnds, if_pos hbreak]
    · exact .behind_break [c] (fun _ => lt_of_mem_breakEnds) fun h => ih h
    · exact hc
  | case4 c rest hc hbreak hnil ih => exact absurd hnil (lines_ne_nil rest)
  | case5 c rest hc hbreak line others hlines ih =>
    rw [breakEnds, if_neg hbreak]
    · exact .cons c hi (fun _ => lt_of_mem_breakEnds) fun h => hlines ▸ ih h
    · exact hc

/-- A line starts behind a break that was passed, or where the text does. -/
theorem lineStart_passed_le (ends : List Nat) (hi : start ≤ i) : lineStart start (passed ends i) ≤ i := by
  unfold lineStart
  cases hlast : (passed ends i).getLast? with
  | none => exact hi
  | some stop =>
    have hstop := List.mem_takeWhile_imp (List.mem_of_getLast? hlast)
    simpa using hstop

theorem sourceLine?_succ (text : Text) (k : Nat) : text.sourceLine? ((k + 1 : Nat) : Int) = text.lines[k]? := by
  have hindex : ((k + 1 : Nat) : Int) - 1 = k := by omega
  have hk : ¬ (k : Int) < 0 := by omega
  simp only [sourceLine?, hindex, if_neg hk, Int.toNat_natCast]

theorem mem_lines_of_sourceLine? {line : Text} {number : Int} (h : text.sourceLine? number = some line) :
    line ∈ text.lines := by
  simp only [sourceLine?, Option.ite_none_left_eq_some] at h
  exact List.mem_of_getElem? h.2

theorem position_natCast {text : Text} (hi : i ≤ text.length) :
    text.position i = ⟨(passed (text.breakEnds 0) i).length + 1,
      i - lineStart 0 (passed (text.breakEnds 0) i) + 1⟩ := by
  have hmin : min (i : Int) text.length = i := by omega
  have hpassed : (text.breakEnds 0).takeWhile (fun (stop : Nat) => decide ((stop : Int) ≤ i)) =
      passed (text.breakEnds 0) i := by
    unfold passed
    congr 1
    funext stop
    simp
  simp only [position, hmin, hpassed, lineStart]

/-- The character of an offset stands in the line of the offset, in its column, if it is
no part of a break. -/
theorem getElem?_sourceLine {row : Text} (hi : i ≤ text.length)
    (hline : text.sourceLine? (text.position i).line = some row)
    (hcolumn : (text.position i).column ≤ row.length) :
    row[((text.position i).column - 1).toNat]? = text[i]? := by
  rw [position_natCast hi] at hline hcolumn ⊢
  rw [sourceLine?_succ] at hline
  have hstart := lineStart_passed_le (text.breakEnds 0) (Nat.zero_le i)
  simp only [Int.add_sub_cancel] at hcolumn ⊢
  have hleads := leadsBack text (Nat.zero_le i) row hline (by omega)
  rw [← Int.natCast_sub hstart, Int.toNat_natCast]
  exact hleads

end Text

end Backtrack
