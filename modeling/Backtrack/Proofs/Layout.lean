-- The law of positions as a whole: a text is laid out in lines with breaks between them in
-- exactly one way, and positions and source lines both tell of this layout. The layout is
-- scanned in one pass, as the lines and the ends of the breaks are, so that each of them
-- agrees with it by the recursion that they share.
import Backtrack.Proofs.Diagnosis
import Backtrack.Proofs.Lines

namespace Backtrack

namespace Text

/-! ## Layouts -/

/-- Lines with the breaks that end them, and the last line, which has no break. -/
structure Layout where
  rows : List (Text × Text)
  last : Text

/-- The text that lines make up with their breaks. -/
def joined (rows : List (Text × Text)) : Text := rows.flatMap fun row => row.1 ++ row.2

theorem joined_cons (row : Text × Text) (rows : List (Text × Text)) :
    joined (row :: rows) = row.1 ++ row.2 ++ joined rows := rfl

theorem length_joined_cons (row : Text × Text) (rows : List (Text × Text)) :
    (joined (row :: rows)).length = (row.1 ++ row.2).length + (joined rows).length :=
  List.length_append

/-- No character of the line belongs to a break. -/
def Plain (line : Text) : Prop := ∀ c ∈ line, c ≠ '\r' ∧ c ≠ '\n'

namespace Layout

def text (d : Layout) : Text := joined d.rows ++ d.last

def lines (d : Layout) : List Text := d.rows.map Prod.fst ++ [d.last]

/-- No line holds a character of a break, and each break is a carriage return with a line
feed, a carriage return with no line feed behind it, or a line feed with no carriage return
before it. -/
structure Exact (d : Layout) : Prop where
  plain : ∀ line ∈ d.lines, Plain line
  breaks : ∀ before line brk after, d.rows = before ++ (line, brk) :: after →
    brk = ['\r', '\n'] ∨
      (brk = ['\r'] ∧ (joined after ++ d.last).head? ≠ some '\n') ∨
      (brk = ['\n'] ∧ (joined before ++ line).getLast? ≠ some '\r')

/-- The layout with one more line on top. -/
def below (line brk : Text) (d : Layout) : Layout := ⟨(line, brk) :: d.rows, d.last⟩

/-- The layout with one more character in front of its first line. -/
def behind (c : Char) (d : Layout) : Layout :=
  match d.rows with
  | [] => ⟨[], c :: d.last⟩
  | (line, brk) :: rows => ⟨(c :: line, brk) :: rows, d.last⟩

theorem length_lines (d : Layout) : d.lines.length = d.rows.length + 1 := by simp [lines]

theorem getElem?_lines_row {d : Layout} {k : Nat} {row : Text × Text} (h : d.rows[k]? = some row) :
    d.lines[k]? = some row.1 := by
  obtain ⟨hk, hget⟩ := List.getElem?_eq_some_iff.mp h
  rw [lines, List.getElem?_append_left (by simpa using hk), List.getElem?_map, h]
  rfl

theorem getElem?_lines_last (d : Layout) : d.lines[d.rows.length]? = some d.last := by
  rw [lines, List.getElem?_append_right (by simp)]
  simp

@[simp] theorem text_below (line brk : Text) (d : Layout) :
    (d.below line brk).text = line ++ brk ++ d.text := by
  simp [below, text, joined]

@[simp] theorem text_behind (c : Char) (d : Layout) : (d.behind c).text = c :: d.text := by
  obtain ⟨rows, last⟩ := d
  cases rows <;> simp [behind, text, joined]

/-! ## Exact layouts from top to bottom -/

/-- A break that may stand before a text. -/
def Ends (brk rest : Text) : Prop :=
  brk = ['\r', '\n'] ∨ (brk = ['\r'] ∧ rest.head? ≠ some '\n') ∨ brk = ['\n']

/-- Line after line, the layout is exact: of what stands before a line feed, only the line
and the break above it have to be looked at. -/
def Regular : List (Text × Text) → Text → Prop
  | [], last => Plain last
  | (line, brk) :: rows, last => Plain line ∧ Ends brk (joined rows ++ last) ∧ Regular rows last

variable {d : Layout} {line brk last : Text} {rows : List (Text × Text)}

theorem Exact.regular (h : d.Exact) : Regular d.rows d.last := by
  obtain ⟨rows, last⟩ := d
  induction rows with
  | nil => exact h.plain last (by simp [lines])
  | cons row rows ih =>
    obtain ⟨line, brk⟩ := row
    refine ⟨h.plain line (by simp [lines]), ?_, ih ⟨fun l hl => ?_, fun before l b after hrows => ?_⟩⟩
    · rcases h.breaks [] line brk rows rfl with hbrk | hbrk | hbrk
      · exact Or.inl hbrk
      · exact Or.inr (Or.inl hbrk)
      · exact Or.inr (Or.inr hbrk.1)
    · exact h.plain l (List.mem_cons_of_mem line hl)
    · rcases h.breaks ((line, brk) :: before) l b after (congrArg _ hrows) with hbrk | hbrk | ⟨hbrk, hlast⟩
      · exact Or.inl hbrk
      · exact Or.inr (Or.inl hbrk)
      · refine Or.inr (Or.inr ⟨hbrk, fun hreturn => hlast ?_⟩)
        simp only [joined, List.flatMap_cons, List.append_assoc] at hreturn ⊢
        rw [List.getLast?_append, List.getLast?_append, hreturn]
        rfl

/-- A line feed has no carriage return before it in the lines above. -/
theorem Regular.getLast?_ne (h : Regular rows last) {before after : List (Text × Text)}
    (hrows : rows = before ++ (line, ['\n']) :: after) :
    (joined before ++ line).getLast? ≠ some '\r' := by
  induction before generalizing rows with
  | nil =>
    subst hrows
    intro hreturn
    exact (h.1 _ (List.mem_of_getLast? hreturn)).1 rfl
  | cons row before ih =>
    subst hrows
    obtain ⟨line', brk'⟩ := row
    have hrest := ih h.2.2 rfl
    intro hreturn
    simp only [joined, List.flatMap_cons, List.append_assoc] at hreturn hrest
    rw [List.getLast?_append, List.getLast?_append] at hreturn
    rcases hlast : (before.flatMap (fun row => row.1 ++ row.2) ++ line).getLast? with _ | c
    · -- Nothing stands between this break and the line feed, so it is no carriage return.
      have hnone : before.flatMap (fun row => row.1 ++ row.2) ++ line = [] :=
        List.getLast?_eq_none_iff.mp hlast
      rcases h.2.1 with rfl | ⟨rfl, hhead⟩ | rfl
      · rw [hlast] at hreturn
        cases hreturn
      · apply hhead
        have hempty := List.append_eq_nil_iff.mp hnone
        simp [joined, hempty.1, hempty.2]
      · rw [hlast] at hreturn
        cases hreturn
    · rw [hlast] at hreturn hrest
      exact hrest hreturn

/-- What stands below some lines is regular by itself. -/
theorem Regular.of_append {before after : List (Text × Text)} (h : Regular (before ++ after) last) :
    Regular after last := by
  induction before with
  | nil => exact h
  | cons row before ih => exact ih h.2.2

theorem Regular.exact (h : Regular rows last) : Exact ⟨rows, last⟩ := by
  constructor
  · intro line hline
    induction rows with
    | nil =>
      cases List.mem_singleton.mp hline
      exact h
    | cons row rows ih =>
      rcases List.mem_cons.mp hline with rfl | hline
      · exact h.1
      · exact ih h.2.2 hline
  · intro before line brk after hrows
    change rows = before ++ (line, brk) :: after at hrows
    have hends : Ends brk (joined after ++ last) := by
      rw [hrows] at h
      exact h.of_append.2.1
    rcases hends with hbrk | hbrk | rfl
    · exact Or.inl hbrk
    · exact Or.inr (Or.inl hbrk)
    · exact Or.inr (Or.inr ⟨rfl, h.getLast?_ne hrows⟩)

end Layout

/-! ## The layout of a text -/

open Layout

/-- The layout of a text, scanned from its start. -/
def layout : Text → Layout
  | [] => ⟨[], []⟩
  | '\r' :: '\n' :: rest => (layout rest).below [] ['\r', '\n']
  | c :: rest =>
    if c = '\r' ∨ c = '\n' then (layout rest).below [] [c]
    else (layout rest).behind c

theorem text_layout (text : Text) : text.layout.text = text := by
  fun_induction layout text with
  | case1 => rfl
  | case2 rest ih => rw [text_below, ih]; rfl
  | case3 c rest _ _ ih => rw [text_below, ih]; rfl
  | case4 c rest _ _ ih => rw [text_behind, ih]

/-- The lines of a text are those of its layout. -/
theorem lines_layout (text : Text) : text.layout.lines = text.lines := by
  fun_induction layout text with
  | case1 => rfl
  | case2 rest ih => rw [Text.lines, ← ih]; rfl
  | case3 c rest hc hbreak ih => 
    rw [Text.lines.eq_3 c rest hc, if_pos hbreak, ← ih]; rfl
  | case4 c rest hc hbreak ih =>
    rw [Text.lines.eq_3 c rest hc, if_neg hbreak, ← ih]
    obtain ⟨rows, last⟩ := layout rest
    cases rows <;> rfl

/-- Where the breaks of lines end that begin at a start. -/
def rowEnds (start : Nat) : List (Text × Text) → List Nat
  | [] => []
  | row :: rows => (start + (row.1 ++ row.2).length) :: rowEnds (start + (row.1 ++ row.2).length) rows

/-- The ends of the breaks of a text are those of its layout. -/
theorem breakEnds_layout (text : Text) (start : Nat) :
    text.breakEnds start = rowEnds start text.layout.rows := by
  fun_induction layout text generalizing start with
  | case1 => rfl
  | case2 rest ih => rw [breakEnds, ih]; rfl
  | case3 c rest hc hbreak ih =>
    rw [breakEnds.eq_3 start c rest hc, if_pos hbreak, ih]; rfl
  | case4 c rest hc hbreak ih =>
    rw [breakEnds.eq_3 start c rest hc, if_neg hbreak, ih]
    obtain ⟨rows, last⟩ := layout rest
    cases rows with
    | nil => rfl
    | cons row rows =>
      have hlength : start + 1 + (row.1 ++ row.2).length = start + (c :: row.1 ++ row.2).length := by
        simp only [List.length_append, List.length_cons]
        omega
      simp only [behind, rowEnds, hlength]

theorem regular_layout (text : Text) : Regular text.layout.rows text.layout.last := by
  fun_induction layout text with
  | case1 => exact fun c hc => by cases hc
  | case2 rest ih => exact ⟨fun c hc => (by cases hc), Or.inl rfl, ih⟩
  | case3 c rest hc hbreak ih =>
    refine ⟨fun c hc => (by cases hc), ?_, ih⟩
    change Ends [c] (layout rest).text
    rw [text_layout]
    rcases hbreak with rfl | rfl
    · refine Or.inr (Or.inl ⟨rfl, fun hhead => ?_⟩)
      obtain ⟨rest', rfl⟩ := List.head?_eq_some_iff.mp hhead
      exact hc rest' rfl rfl
    · exact Or.inr (Or.inr rfl)
  | case4 c rest hc hbreak ih =>
    have hplain : c ≠ '\r' ∧ c ≠ '\n' := not_or.mp hbreak
    generalize layout rest = d at ih ⊢
    obtain ⟨rows, last⟩ := d
    cases rows with
    | nil => exact List.forall_mem_cons.mpr ⟨hplain, ih⟩
    | cons row rows => exact ⟨List.forall_mem_cons.mpr ⟨hplain, ih.1⟩, ih.2⟩

/-! ## There is only one layout -/

variable {line brk last rest : Text} {rows : List (Text × Text)}

theorem layout_cons {c : Char} (hc : c ≠ '\r' ∧ c ≠ '\n') (rest : Text) :
    layout (c :: rest) = (layout rest).behind c := by
  have hbreak : ¬ (c = '\r' ∨ c = '\n') := not_or.mpr hc
  rw [layout.eq_3 c rest fun _ h => (hc.1 h).elim, if_neg hbreak]

/-- A break ends the first line of a layout. -/
theorem layout_break (h : Ends brk rest) : layout (brk ++ rest) = (layout rest).below [] brk := by
  rcases h with rfl | ⟨rfl, hhead⟩ | rfl
  · rfl
  · have hnot : ∀ rest', '\r' = '\r' → rest = '\n' :: rest' → False := by
      rintro rest' - rfl
      exact hhead rfl
    rw [List.singleton_append, layout.eq_3 '\r' rest hnot]
    rfl
  · rfl

/-- A line with its break stands on top of the layout of what follows. -/
theorem layout_row (hline : Plain line) (h : Ends brk rest) :
    layout (line ++ brk ++ rest) = (layout rest).below line brk := by
  induction line with
  | nil => exact layout_break h
  | cons c line ih =>
    obtain ⟨hc, hline⟩ := List.forall_mem_cons.mp hline
    rw [List.cons_append, List.cons_append, layout_cons hc, ih hline]
    rfl

theorem layout_plain (h : Plain last) : layout last = ⟨[], last⟩ := by
  induction last with
  | nil => rfl
  | cons c last ih =>
    obtain ⟨hc, hlast⟩ := List.forall_mem_cons.mp h
    rw [layout_cons hc, ih hlast]
    rfl

/-- Line after line, an exact layout is scanned as it stands. -/
theorem Layout.Regular.layout_text (h : Regular rows last) : layout (joined rows ++ last) = ⟨rows, last⟩ := by
  induction rows with
  | nil => exact layout_plain h
  | cons row rows ih =>
    have hrow := layout_row h.1 h.2.1
    rw [ih h.2.2] at hrow
    rw [joined, List.flatMap_cons, List.append_assoc]
    exact hrow

/-! ## Positions in a layout -/

theorem passed_cons_of_lt {stop i : Nat} (h : i < stop) (ends : List Nat) : passed (stop :: ends) i = [] := by
  simp [passed, h]

/-- Later offsets have passed the same breaks, and perhaps more. -/
theorem passed_prefix {i j : Nat} (h : i ≤ j) (ends : List Nat) : passed ends i <+: passed ends j := by
  induction ends with
  | nil => exact List.prefix_refl _
  | cons stop ends ih =>
    rcases Nat.lt_or_ge i stop with hstop | hstop
    · rw [passed_cons_of_lt hstop]
      exact List.nil_prefix
    · rw [passed_cons_of_le hstop, passed_cons_of_le (Nat.le_trans hstop h)]
      exact (List.prefix_cons_inj stop).mpr ih

variable {start i : Nat}

/-- A line starts where the lines above it end. -/
theorem lineStart_rowEnds : lineStart start (passed (rowEnds start rows) i) =
    start + (joined (rows.take (passed (rowEnds start rows) i).length)).length := by
  induction rows generalizing start with
  | nil => rfl
  | cons row rows ih =>
    rw [rowEnds]
    rcases Nat.lt_or_ge i (start + (row.1 ++ row.2).length) with hi | hi
    · rw [passed_cons_of_lt hi]
      rfl
    · rw [passed_cons_of_le hi, lineStart_cons, ih, List.length_cons, List.take_succ_cons,
        length_joined_cons]
      omega

/-- An offset stands before the end of its line with the break. -/
theorem lt_rowEnds (h : (passed (rowEnds start rows) i).length < rows.length) :
    i < start + (joined (rows.take ((passed (rowEnds start rows) i).length + 1))).length := by
  induction rows generalizing start with
  | nil => cases h
  | cons row rows ih =>
    rw [rowEnds] at h ⊢
    rcases Nat.lt_or_ge i (start + (row.1 ++ row.2).length) with hi | hi
    · rw [passed_cons_of_lt hi]
      simpa [joined] using hi
    · rw [passed_cons_of_le hi] at h ⊢
      have hrest := ih (Nat.lt_of_succ_lt_succ h)
      rw [List.length_cons, List.take_succ_cons, length_joined_cons]
      omega

theorem length_passed_rowEnds_le : (passed (rowEnds start rows) i).length ≤ rows.length := by
  have hends : (rowEnds start rows).length = rows.length := by
    induction rows generalizing start with
    | nil => rfl
    | cons row rows ih => exact congrArg (· + 1) ih
  rw [← hends]
  exact (List.takeWhile_sublist _).length_le

theorem length_joined_take_succ {row : Text × Text} {k : Nat} (hrow : rows[k]? = some row) :
    (joined (rows.take (k + 1))).length = (joined (rows.take k)).length + (row.1 ++ row.2).length := by
  rw [List.take_add_one, hrow, joined, List.flatMap_append, List.length_append]
  simp [joined]

/-- Behind the lines above it, a row of a layout stands in the text. -/
theorem getElem?_row (last : Text) {row : Text × Text} {k m : Nat} (hrow : rows[k]? = some row)
    (hm : m < (row.1 ++ row.2).length) :
    (joined rows ++ last)[(joined (rows.take k)).length + m]? = (row.1 ++ row.2)[m]? := by
  obtain ⟨hk, hget⟩ := List.getElem?_eq_some_iff.mp hrow
  have hsplit : rows = rows.take k ++ row :: rows.drop (k + 1) := by
    rw [← hget, List.getElem_cons_drop, List.take_append_drop]
  have hjoined : joined rows = joined (rows.take k) ++ (row.1 ++ row.2 ++ joined (rows.drop (k + 1))) := by
    conv_lhs => rw [hsplit]
    rw [← joined_cons]
    exact List.flatMap_append
  rw [hjoined, List.append_assoc, List.getElem?_append_right (Nat.le_add_right _ _), Nat.add_sub_cancel_left,
    List.append_assoc, List.getElem?_append_left hm]

/-! ## The law of positions -/

namespace Layout

/-- What the position of an offset tells in a layout of its text. -/
structure Tells (d : Layout) (i : Nat) (p : Position) : Prop where
  /-- It is a position in one of the lines. -/
  in_lines : 1 ≤ p.line ∧ p.line ≤ d.lines.length ∧ 1 ≤ p.column
  /-- The lines above it with their breaks, and the columns before it, lead to the offset. -/
  offset : (i : Int) = (joined (d.rows.take (p.line - 1))).length + p.column - 1
  /-- A column of the line is that of the character at the offset. -/
  in_line : ∀ source, d.lines[p.line - 1]? = some source → p.column ≤ source.length →
    ∃ c, d.text[i]? = some c ∧ source[(p.column - 1).toNat]? = some c
  /-- A column behind the line is one of its break, or the end of the text. -/
  behind_line : ∀ line, d.lines[p.line - 1]? = some line → line.length < p.column →
    (∃ brk n, d.rows[p.line - 1]? = some (line, brk) ∧ n < brk.length ∧
      p.column = line.length + n + 1 ∧ d.text[i]? = brk[n]?) ∨
    (p.line = d.lines.length ∧ i = d.text.length)

end Layout

variable {text : Text}

/-- The position of an offset, counted in the rows of the layout. -/
theorem position_layout (hi : i ≤ text.length) : ∃ k, k ≤ text.layout.rows.length ∧
    text.position i = ⟨k + 1, i - (joined (text.layout.rows.take k)).length + 1⟩ ∧
    (joined (text.layout.rows.take k)).length ≤ i ∧
    (k < text.layout.rows.length → i < (joined (text.layout.rows.take (k + 1))).length) := by
  have hstart := lineStart_passed_le (rowEnds 0 text.layout.rows) (Nat.zero_le i)
  refine ⟨(passed (rowEnds 0 text.layout.rows) i).length, length_passed_rowEnds_le, ?_, ?_, fun h => ?_⟩
  · rw [position_natCast hi, breakEnds_layout, lineStart_rowEnds, Nat.zero_add]
  · rw [lineStart_rowEnds, Nat.zero_add] at hstart
    exact hstart
  · have hend := lt_rowEnds h
    rwa [Nat.zero_add] at hend

/-- A column behind the line belongs to its break, or to the end of the text. -/
theorem behind_line_of_lt {d : Layout} {k : Nat} (hk : k ≤ d.rows.length)
    (hle : (joined (d.rows.take k)).length ≤ i) (hi : i ≤ d.text.length)
    (hlt : k < d.rows.length → i < (joined (d.rows.take (k + 1))).length) (hline : d.lines[k]? = some line)
    (hcolumn : (joined (d.rows.take k)).length + line.length ≤ i) :
    (∃ brk n, d.rows[k]? = some (line, brk) ∧ n < brk.length ∧
      i = (joined (d.rows.take k)).length + line.length + n ∧ d.text[i]? = brk[n]?) ∨
    (k = d.rows.length ∧ i = d.text.length) := by
  rcases Nat.lt_or_eq_of_le hk with hrow | rfl
  · left
    have hget := List.getElem?_eq_getElem hrow
    generalize d.rows[k] = row at hget
    obtain ⟨line', brk⟩ := row
    have hsame := (getElem?_lines_row hget).symm.trans hline
    cases hsame
    have hend := hlt hrow
    rw [length_joined_take_succ hget, List.length_append] at hend
    obtain ⟨n, rfl⟩ := Nat.exists_eq_add_of_le hcolumn
    have hn : n < brk.length := by
      simp only at hend
      omega
    have hm : line'.length + n < (line' ++ brk).length := by
      rw [List.length_append]
      omega
    refine ⟨brk, n, hget, hn, rfl, ?_⟩
    have hchar := getElem?_row d.last hget hm
    rw [← Nat.add_assoc, List.getElem?_append_right (Nat.le_add_right _ _), Nat.add_sub_cancel_left] at hchar
    exact hchar
  · right
    have hlast := d.getElem?_lines_last.symm.trans hline
    cases hlast
    have hlength : d.text.length = (joined d.rows).length + d.last.length := List.length_append
    rw [List.take_length] at hcolumn
    exact ⟨rfl, by omega⟩

theorem tells_position (hi : i ≤ text.length) : text.layout.Tells i (text.position i) := by
  have hcharacter : ∀ row, text.sourceLine? (text.position i).line = some row →
      (text.position i).column ≤ row.length → row[((text.position i).column - 1).toNat]? = text[i]? :=
    fun _ => getElem?_sourceLine hi
  obtain ⟨k, hk, hposition, hle, hlt⟩ := position_layout hi
  have htext := text.text_layout
  rw [hposition] at hcharacter ⊢
  simp only [sourceLine?_succ, ← lines_layout] at hcharacter
  constructor
  · have hlines := text.layout.length_lines
    simp only
    omega
  · simp only [Nat.add_sub_cancel]
    omega
  · intro line hline hcolumn
    have hchar := hcharacter line hline hcolumn
    simp only at hchar hcolumn ⊢
    have hin : ((i : Int) - (joined (text.layout.rows.take k)).length + 1 - 1).toNat < line.length := by omega
    rw [htext, ← hchar]
    exact ⟨_, List.getElem?_eq_getElem hin, List.getElem?_eq_getElem hin⟩
  · intro line hline hcolumn
    simp only [Nat.add_sub_cancel] at hline hcolumn ⊢
    rcases behind_line_of_lt hk hle (by rw [htext]; exact hi) hlt hline (by omega) with
      ⟨brk, n, hrow, hn, hi, hchar⟩ | ⟨hlast, hend⟩
    · exact Or.inl ⟨brk, n, hrow, hn, by omega, hchar⟩
    · exact Or.inr ⟨by rw [text.layout.length_lines, hlast], hend⟩

/-- Further on in a text, positions stand in a later line, or in the same line in a later
column. -/
theorem position_increasing {j : Nat} (hij : i < j) (hj : j ≤ text.length) :
    (text.position i).line < (text.position j).line ∨
      (text.position i).line = (text.position j).line ∧
        (text.position i).column < (text.position j).column := by
  rw [position_natCast (by omega : i ≤ text.length), position_natCast hj]
  have hbegins := passed_prefix (Nat.le_of_lt hij) (text.breakEnds 0)
  rcases Nat.lt_or_eq_of_le hbegins.length_le with hlt | heq
  · exact Or.inl (Nat.succ_lt_succ hlt)
  · refine Or.inr ⟨congrArg (· + 1) heq, ?_⟩
    rw [hbegins.eq_of_length heq]
    simp only
    omega

theorem position_beyond {offset : Int} (h : text.length < offset) :
    text.position offset = text.position text.length := by
  simp only [position, Int.min_self, Int.min_eq_right (Int.le_of_lt h)]

theorem sourceLine?_beyond {number : Int} (h : text.lines.length < number) :
    text.sourceLine? number = none := by
  have hnumber : ¬ number - 1 < 0 := by omega
  simp only [sourceLine?, if_neg hnumber]
  exact List.getElem?_eq_none (by omega)

/-- Every text is laid out in exactly one way, and its positions and source lines tell of
this layout: the position of an offset names the line that the offset stands in and counts
its column from the start of that line, source lines are the lines of the layout, numbered
from 1, and there is none behind the last. Further on in the text positions are greater,
offsets beyond the end have the position of the end, and the line of every offset, whether
it lies in the text or not, is a source line. -/
theorem positions_decompose_the_text (text : Text) :
    ∃ d : Layout, d.Exact ∧ d.text = text ∧
      (∀ d' : Layout, d'.Exact → d'.text = text → d' = d) ∧
      (∀ i : Nat, i ≤ text.length → d.Tells i (text.position i)) ∧
      (∀ (k : Nat) line, d.lines[k]? = some line → text.sourceLine? (k + 1) = some line) ∧
      (∀ number : Int, d.lines.length < number → text.sourceLine? number = none) ∧
      (∀ i j : Nat, i < j → j ≤ text.length →
        (text.position i).line < (text.position j).line ∨
          (text.position i).line = (text.position j).line ∧
            (text.position i).column < (text.position j).column) ∧
      (∀ i j : Nat, i ≤ text.length → j ≤ text.length → text.position i = text.position j → i = j) ∧
      (∀ offset : Int, text.length < offset → text.position offset = text.position text.length) ∧
      ∀ offset : Int, ∃ line, text.sourceLine? (text.position offset).line = some line := by
  refine ⟨text.layout, text.regular_layout.exact, text.text_layout, ?_, fun i hi => tells_position hi, ?_, ?_,
    fun i j hij hj => position_increasing hij hj, ?_, fun offset => position_beyond,
    text.exists_sourceLine_position⟩
  · intro d hexact htext
    rw [← htext]
    exact hexact.regular.layout_text.symm
  · intro k line hline
    rw [lines_layout] at hline
    exact (sourceLine?_succ text k).trans hline
  · intro number hnumber
    rw [lines_layout] at hnumber
    exact sourceLine?_beyond hnumber
  · intro i j hi hj hsame
    rcases Nat.lt_trichotomy i j with hlt | heq | hgt
    · rcases position_increasing hlt hj with h | h <;> rw [hsame] at h <;> omega
    · exact heq
    · rcases position_increasing hgt hi with h | h <;> rw [hsame] at h <;> omega

/-- A line feed behind a carriage return still counts to the line that both end. -/
example : Text.position ['a', '\r', '\n', 'b'] 2 = ⟨1, 3⟩ := by decide

end Text

end Backtrack
