-- The law of the caret: the message of a failed parse shows the line of the text with a
-- caret below. Three readings of a line meet there, that of the position, that of the
-- margin and that of whoever cuts the message into lines; the caret stands under its
-- character exactly where they agree.
import Backtrack.Proofs.Diagnosis
import Backtrack.Proofs.Lines
import Mathlib.Data.List.Basic

namespace Backtrack

namespace Text

/-! ## The end of a line -/

variable {text : Text}

theorem prefix_trimEnd (text : Text) : text.trimEnd <+: text := by
  rw [trimEnd, ← List.reverse_suffix, List.reverse_reverse]
  exact List.dropWhile_suffix _

/-- A trimmed line ends in ink. -/
theorem not_blank_getLast_trimEnd {c : Char} (h : text.trimEnd.getLast? = some c) : ¬ isBlank c := by
  rw [trimEnd, List.getLast?_reverse] at h
  have := List.head?_dropWhile_not isBlank text.reverse
  rw [h] at this
  simpa using this

/-! ## The margin -/

theorem isBlank_of_isLineBoundary {c : Char} (h : isLineBoundary c) : isBlank c := by
  simp only [isLineBoundary, List.contains_eq_mem, decide_eq_true_eq, List.mem_cons, List.not_mem_nil,
    or_false] at h
  rcases h with rfl | rfl | rfl | rfl | rfl | rfl | rfl | rfl | rfl | rfl <;> decide

theorem pieces_cons {c : Char} (hc : c ≠ '\r') (rest : Text) :
    pieces (c :: rest) = if isLineBoundary c then [c] :: pieces rest else
      match pieces rest with
      | [] => [[c]]
      | piece :: others => (c :: piece) :: others := by
  exact pieces.eq_3 c rest fun rest' h => (hc h).elim

theorem pieces_ne_nil (h : text ≠ []) : text.pieces ≠ [] := by
  intro hnil
  have := flatten_pieces text
  rw [hnil] at this
  exact h this.symm

/-- Behind a boundary a new piece begins. -/
theorem pieces_append {before : Text} (hbefore : '\r' ∉ before) {b : Char} (hb : isLineBoundary b)
    (hb' : b ≠ '\r') (rest : Text) :
    pieces (before ++ b :: rest) = pieces (before ++ [b]) ++ pieces rest := by
  induction before with
  | nil => simp [pieces_cons hb', hb, pieces]
  | cons c before ih =>
    have hc : c ≠ '\r' := fun h => hbefore (h ▸ List.mem_cons_self)
    have hrest := ih fun h => hbefore (List.mem_cons_of_mem c h)
    rw [List.cons_append, List.cons_append, pieces_cons hc, pieces_cons hc, hrest]
    split
    · rfl
    · rcases hpieces : pieces (before ++ [b]) with _ | ⟨piece, others⟩
      · exact (pieces_ne_nil (by simp) hpieces).elim
      · rfl

/-- A piece goes on to the next boundary, or to the end. -/
theorem pieces_single {line : Text} (hline : ∀ c ∈ line, ¬ isLineBoundary c) {c : Char} (hc : c ≠ '\r') :
    pieces (line ++ [c]) = [line ++ [c]] := by
  induction line with
  | nil =>
    rw [List.nil_append, pieces_cons hc]
    simp [pieces]
  | cons d line ih =>
    have hd : ¬ isLineBoundary d := hline d List.mem_cons_self
    have hd' : d ≠ '\r' := by
      rintro rfl
      exact hd (by decide)
    rw [List.cons_append, pieces_cons hd', if_neg hd, ih fun e he => hline e (List.mem_cons_of_mem d he)]

variable (margin : Text)

theorem withMargin_append {before : Text} (hbefore : '\r' ∉ before) {b : Char} (hb : isLineBoundary b)
    (hb' : b ≠ '\r') (rest : Text) :
    withMargin margin (before ++ b :: rest) =
      withMargin margin (before ++ [b]) ++ withMargin margin rest := by
  rw [withMargin, pieces_append hbefore hb hb', List.flatMap_append]
  rfl

/-- A single piece that shows ink is moved to the right. -/
theorem withMargin_single {line : Text} (hline : ∀ c ∈ line, ¬ isLineBoundary c) {c : Char} (hc : c ≠ '\r')
    (hink : ∃ d ∈ line ++ [c], ¬ isBlank d) : withMargin margin (line ++ [c]) = margin ++ (line ++ [c]) := by
  have hnot : ¬ (line ++ [c]).all isBlank := by
    intro hall
    obtain ⟨d, hd, hink⟩ := hink
    exact hink (List.all_eq_true.mp hall d hd)
  rw [withMargin, pieces_single hline hc, List.flatMap_cons, List.flatMap_nil, if_neg hnot,
    List.append_nil]

/-- The margin adds nothing but itself. -/
theorem mem_withMargin {c : Char} (h : c ∈ withMargin margin text) : c ∈ margin ∨ c ∈ text := by
  obtain ⟨piece, hpiece, hc⟩ := List.mem_flatMap.mp h
  have htext : c ∈ piece → c ∈ text := by
    intro hc
    rw [← flatten_pieces text]
    exact List.mem_flatten.mpr ⟨piece, hpiece, hc⟩
  split at hc
  · exact Or.inr (htext hc)
  · exact (List.mem_append.mp hc).imp_right htext

end Text

namespace ParseError

open Text

/-! ## The line of the snippet -/

/-- A text that holds a boundary holds a last one. -/
theorem exists_last_boundary {snippet : Text} (h : ∃ c ∈ snippet, isLineBoundary c) :
    ∃ front b line, snippet = front ++ b :: line ∧ isLineBoundary b ∧
      ∀ c ∈ line, ¬ isLineBoundary c := by
  induction snippet with
  | nil =>
    obtain ⟨c, hc, _⟩ := h
    cases hc
  | cons c rest ih =>
    by_cases hrest : ∃ c ∈ rest, isLineBoundary c
    · obtain ⟨front, b, line, rfl, hb, hline⟩ := ih hrest
      exact ⟨c :: front, b, line, rfl, hb, hline⟩
    · obtain ⟨d, hd, hb⟩ := h
      rcases List.mem_cons.mp hd with rfl | hd
      · exact ⟨[], d, rest, rfl, hb, fun c hc hboundary => hrest ⟨c, hc, hboundary⟩⟩
      · exact (hrest ⟨d, hd, hb⟩).elim

/-- A line that ends in ink and has a break behind it is shown in one line of the message.
It is the line itself behind the margin exactly if it holds no boundary, behind which the
margin would be repeated. -/
theorem exists_shown {snippet : Text} (hbreaks : ∀ c ∈ snippet, c ≠ '\r' ∧ c ≠ '\n') {ink : Char}
    (hlast : snippet.getLast? = some ink) (hink : ¬ isBlank ink) :
    ∃ shown, withMargin margin (snippet ++ ['\n']) = shown ++ ['\n'] ∧ '\n' ∉ shown ∧
      (shown = margin ++ snippet ↔ ∀ c ∈ snippet, ¬ isLineBoundary c) := by
  have hmargin : '\n' ∉ margin := by decide
  have hnewline : '\n' ∉ snippet := fun h => (hbreaks _ h).2 rfl
  by_cases hnone : ∀ c ∈ snippet, ¬ isLineBoundary c
  · refine ⟨margin ++ snippet, ?_, by simp [hmargin, hnewline], by simpa using hnone⟩
    have hmem : ink ∈ snippet ++ ['\n'] := List.mem_append_left _ (List.mem_of_getLast? hlast)
    rw [withMargin_single margin hnone (by decide) ⟨ink, hmem, hink⟩, List.append_assoc]
  · -- The last boundary stands before ink, and the margin is repeated between them.
    obtain ⟨front, b, line, rfl, hb, hline⟩ := exists_last_boundary (by simpa using hnone)
    have hne : line ≠ [] := by
      rintro rfl
      rw [List.getLast?_append, List.getLast?_singleton] at hlast
      cases hlast
      exact hink (isBlank_of_isLineBoundary hb)
    have hmem : ink ∈ line ++ ['\n'] := by
      rw [List.getLast?_append_cons, List.getLast?_cons_of_ne_nil hne] at hlast
      exact List.mem_append_left _ (List.mem_of_getLast? hlast)
    have hfront : '\r' ∉ front := fun h => (hbreaks _ (List.mem_append_left _ h)).1 rfl
    have hb' : b ≠ '\r' := (hbreaks b (by simp)).1
    have hshown := withMargin_append margin hfront hb hb' (line ++ ['\n'])
    rw [withMargin_single margin hline (by decide) ⟨ink, hmem, hink⟩] at hshown
    refine ⟨withMargin margin (front ++ [b]) ++ (margin ++ line), ?_, ?_, ?_⟩
    · simpa using hshown
    · intro h
      have hin : '\n' ∈ front ++ b :: line := by
        rcases List.mem_append.mp h with h | h
        · have hbefore := (mem_withMargin margin h).resolve_left hmargin
          exact List.mem_append.mpr ((List.mem_append.mp hbefore).imp_right (by simp_all))
        · have hbehind := (List.mem_append.mp h).resolve_left hmargin
          exact List.mem_append_right _ (List.mem_cons_of_mem b hbehind)
      exact hnewline hin
    · refine ⟨fun heq => ?_, fun h => (hnone h).elim⟩
      -- In front of the last piece stands a blank in the one, and the boundary in the other.
      have hall : withMargin margin (front ++ [b]) ++ margin ++ line = margin ++ front ++ [b] ++ line := by
        simpa using heq
      have hends := congrArg List.getLast? (List.append_cancel_right hall)
      have hblank : margin.getLast? = some ' ' := by decide
      rw [List.getLast?_append, hblank, List.getLast?_concat] at hends
      cases hends
      exact (by decide : ¬ isLineBoundary ' ') hb |>.elim

/-! ## The message -/

/-- The line of the message that tells the position. -/
def heading (e : ParseError) : Text :=
  ("At line " ++ toString e.position.line ++ " column " ++ toString e.position.column ++ ":").toList

/-- What the message tells behind the pointer. -/
def ending (e : ParseError) : Text := ("Expected " ++ e.expectation).toList

theorem newline_notMem_digits (n : Nat) : '\n' ∉ Nat.toDigits 10 n := by
  intro h
  have hdigit := Nat.isDigit_of_mem_toDigits (by decide) (by decide) h
  cases hdigit

theorem newline_notMem_repr (n : Int) : '\n' ∉ n.repr.toList := by
  cases n with
  | ofNat n => simpa [Int.repr, Nat.repr] using newline_notMem_digits n
  | negSucc n => simpa [Int.repr, Nat.repr] using newline_notMem_digits (n + 1)

theorem newline_notMem_heading (e : ParseError) : '\n' ∉ e.heading := by
  have hline := newline_notMem_digits e.position.line
  have hcolumn := newline_notMem_repr e.position.column
  simp [heading, hline, hcolumn]

theorem newline_notMem_pointer (e : ParseError) : '\n' ∉ e.pointer := by
  simp [pointer]

/-- The pointer is moved to the right. -/
theorem withMargin_pointer (e : ParseError) : withMargin margin e.pointer = margin ++ e.pointer := by
  refine withMargin_single margin (fun c hc => ?_) (by decide) ⟨'^', by simp, by decide⟩
  rw [List.eq_of_mem_replicate hc]
  decide

theorem toList_message {e : ParseError} {snippet : Text} (hs : e.snippet? = some snippet)
    {message : String} (hm : e.message? = some message) :
    message.toList = e.heading ++ '\n' ::
      (withMargin margin (snippet ++ '\n' :: e.pointer) ++ '\n' :: e.ending) := by
  rw [message?, hs] at hm
  cases hm
  simp [heading, ending]

theorem splitOn_newline {line : Text} (hline : '\n' ∉ line) (rest : Text) :
    (line ++ '\n' :: rest).splitOn '\n' = line :: rest.splitOn '\n' := by
  refine List.splitOnP_append_cons_of_forall_mem (fun c hc => ?_) '\n' (by decide) rest
  simp only [beq_eq_false_iff_ne]
  rintro rfl
  exact hline hc

/-! ## What is shown -/

variable {e : ParseError} {snippet : Text}

theorem exists_line (hs : e.snippet? = some snippet) :
    ∃ line, e.text.sourceLine? e.position.line = some line ∧ line.trimEnd = snippet :=
  Option.map_eq_some_iff.mp hs

/-- No break is shown inside the snippet. -/
theorem not_break_of_mem_snippet (hs : e.snippet? = some snippet) {c : Char} (hc : c ∈ snippet) :
    c ≠ '\r' ∧ c ≠ '\n' := by
  obtain ⟨line, hline, rfl⟩ := exists_line hs
  exact not_break_of_mem_lines (mem_lines_of_sourceLine? hline) ((prefix_trimEnd line).mem hc)

/-- A snippet with a character in it ends in ink. -/
theorem exists_ink (hs : e.snippet? = some snippet) (hne : snippet ≠ []) :
    ∃ ink, snippet.getLast? = some ink ∧ ¬ isBlank ink := by
  obtain ⟨line, hline, rfl⟩ := exists_line hs
  have hlast := List.getLast?_eq_some_getLast hne
  exact ⟨_, hlast, not_blank_getLast_trimEnd hlast⟩

/-- If the character of an offset is shown at all, it stands in the column of the offset. -/
theorem getElem?_snippet (hs : e.snippet? = some snippet)
    (hindex : 0 ≤ e.index ∧ e.index < e.text.length) (hcolumn : e.position.column ≤ snippet.length) :
    snippet[(e.position.column - 1).toNat]? = e.text[e.index.toNat]? := by
  obtain ⟨row, hline, rfl⟩ := exists_line hs
  have hfirst : 1 ≤ e.position.column := e.text.one_le_column_position e.index hindex.1
  obtain ⟨rest, hrest⟩ := prefix_trimEnd row
  have hlength := (prefix_trimEnd row).length_le
  have hleft : row[(e.position.column - 1).toNat]? =
      row.trimEnd[(e.position.column - 1).toNat]? := by
    conv_lhs => rw [← hrest]
    exact List.getElem?_append_left (by omega)
  obtain ⟨i, hi⟩ := Int.eq_ofNat_of_zero_le hindex.1
  rw [← hleft]
  unfold position at hline hcolumn ⊢
  rw [hi] at hline hcolumn ⊢
  exact getElem?_sourceLine (by omega) hline (by omega)

/-- The lines of a message that shows a character. -/
theorem exists_message_lines (hs : e.snippet? = some snippet) (hne : snippet ≠ []) :
    ∃ message shown, e.message? = some message ∧ message.toList.splitOn '\n' =
        e.heading :: shown :: (margin ++ e.pointer) :: e.ending.splitOn '\n' ∧
      (shown = margin ++ snippet ↔ ∀ c ∈ snippet, ¬ isLineBoundary c) := by
  obtain ⟨ink, hlast, hink⟩ := exists_ink hs hne
  have hbreaks : ∀ c ∈ snippet, c ≠ '\r' ∧ c ≠ '\n' := fun c => not_break_of_mem_snippet hs
  obtain ⟨shown, hshown, hnewline, halike⟩ := exists_shown hbreaks hlast hink
  obtain ⟨message, hmessage⟩ := e.exists_message
  refine ⟨message, shown, hmessage, ?_, halike⟩
  have hreturn : '\r' ∉ snippet := fun h => (hbreaks _ h).1 rfl
  have hpointer : '\n' ∉ margin ++ e.pointer := by
    rw [List.mem_append, not_or]
    exact ⟨by decide, e.newline_notMem_pointer⟩
  rw [toList_message hs hmessage, splitOn_newline e.newline_notMem_heading,
    withMargin_append margin hreturn (by decide) (by decide), hshown, withMargin_pointer,
    List.append_assoc, List.append_assoc, List.singleton_append, splitOn_newline hnewline,
    splitOn_newline hpointer]

/-! ## The law of the caret -/

/-- In the lines of the message, the line of the text stands behind the margin below the
heading, and below it stands a caret behind blanks, under the character of the offset. -/
def Aligned (e : ParseError) : Prop :=
  ∃ message snippet first blanks rest, e.message? = some message ∧ e.snippet? = some snippet ∧
    message.toList.splitOn '\n' =
      first :: (margin ++ snippet) :: (List.replicate blanks ' ' ++ ['^']) :: rest ∧
    (margin ++ snippet)[blanks]? = e.text[e.index.toNat]?

/-- If the character of an offset is shown at all, it stands in the column of the offset in
the snippet, and the message is made of the heading, one line for the snippet, the caret
of that column behind the margin, and the ending. The caret stands under the character
exactly if the snippet holds no boundary of plain text. -/
theorem caret_stands_under_the_character (hs : e.snippet? = some snippet)
    (hindex : 0 ≤ e.index ∧ e.index < e.text.length) (hcolumn : e.position.column ≤ snippet.length) :
    snippet[(e.position.column - 1).toNat]? = e.text[e.index.toNat]? ∧
      (∃ message shown, e.message? = some message ∧ message.toList.splitOn '\n' =
        e.heading :: shown :: (margin ++ e.pointer) :: e.ending.splitOn '\n') ∧
      (e.Aligned ↔ ∀ c ∈ snippet, ¬ isLineBoundary c) := by
  have hcharacter := getElem?_snippet hs hindex hcolumn
  have hfirst : 1 ≤ e.position.column := e.text.one_le_column_position e.index hindex.1
  have hne : snippet ≠ [] := by
    rintro rfl
    simp only [List.length_nil] at hcolumn
    omega
  obtain ⟨message, shown, hmessage, hlines, halike⟩ := exists_message_lines hs hne
  refine ⟨hcharacter, ⟨message, shown, hmessage, hlines⟩, ?_⟩
  rw [← halike]
  constructor
  · rintro ⟨message', snippet', first, blanks, rest', hm, hs', hcut, _⟩
    cases hmessage.symm.trans hm
    cases hs.symm.trans hs'
    rw [hlines] at hcut
    injection hcut with _ hcut
    injection hcut
  · intro hsame
    have hcaret : margin ++ e.pointer =
        List.replicate (4 + (e.position.column - 1).toNat) ' ' ++ ['^'] := by
      rw [pointer, margin, ← List.append_assoc, List.replicate_append_replicate]
    refine ⟨message, snippet, e.heading, 4 + (e.position.column - 1).toNat, e.ending.splitOn '\n',
      hmessage, hs, ?_, ?_⟩
    · rw [hlines, hsame, hcaret]
    · rw [List.getElem?_append_right (by simp [margin])]
      simpa [margin] using hcharacter

/-- The caret under the third character of the second line. -/
theorem caret_under_a_letter :
    let e : ParseError := ⟨"ab\r\n cde ".toList, 6, ["x"]⟩
    let snippet : Text := [' ', 'c', 'd', 'e']
    e.snippet? = some snippet ∧ (0 ≤ e.index ∧ e.index < e.text.length) ∧
      e.position.column ≤ snippet.length ∧ snippet[(e.position.column - 1).toNat]? = some 'd' ∧
      e.Aligned := by
  intro e snippet
  have hs : e.snippet? = some snippet := by decide
  have hindex : 0 ≤ e.index ∧ e.index < e.text.length := by decide
  have hcolumn : e.position.column ≤ snippet.length := by decide
  obtain ⟨hcharacter, _, haligned⟩ := caret_stands_under_the_character hs hindex hcolumn
  have hnone : ∀ c ∈ snippet, ¬ isLineBoundary c := by simp [snippet, isLineBoundary]
  exact ⟨hs, hindex, hcolumn, hcharacter, haligned.mpr hnone⟩

/-- Behind a vertical tab the snippet is moved once more, and the caret is not. -/
theorem caret_beside_a_letter :
    let e : ParseError := ⟨['a', 'b', '\x0b', 'c', 'd'], 3, ["x"]⟩
    e.snippet? = some e.text ∧ (0 ≤ e.index ∧ e.index < e.text.length) ∧
      e.position.column ≤ e.text.length ∧ e.text[e.index.toNat]? = some 'c' ∧
      e.message? = some "At line 1 column 4:\n    ab\x0b    cd\n       ^\nExpected x" ∧
      ¬ e.Aligned := by
  intro e
  have hs : e.snippet? = some e.text := by decide
  have hmessage : e.message? =
      some "At line 1 column 4:\n    ab\x0b    cd\n       ^\nExpected x" := by decide
  refine ⟨hs, by decide, by decide, by decide, hmessage, ?_⟩
  rintro ⟨message, snippet, first, blanks, rest, hm, hs', hlines, _⟩
  cases hmessage.symm.trans hm
  cases hs.symm.trans hs'
  have hcut : "At line 1 column 4:\n    ab\x0b    cd\n       ^\nExpected x".toList.splitOn '\n' =
      ["At line 1 column 4:".toList, "    ab\x0b    cd".toList, "       ^".toList,
        "Expected x".toList] := by decide
  rw [hcut] at hlines
  injection hlines with _ hlines
  injection hlines with hsnippet
  revert hsnippet
  decide

end ParseError

end Backtrack
