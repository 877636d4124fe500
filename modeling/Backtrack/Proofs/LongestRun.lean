-- The law of longest runs: a pattern for a run of characters of a set takes in one match what
-- repetitions of a pattern for one of them take item by item. The match is found by one walk
-- over what is left of the text, while the repetitions read the text again from each offset.
-- Both come to the same run, the longest start of what is left that the set holds, and the
-- other candidates of the repetitions are its shorter starts.
import Backtrack.Proofs.Collected
import Backtrack.Proofs.OneOrMore

namespace Backtrack

namespace Pattern

variable {set : CharSet} {c : Cursor} {past rest : List Char} {captures : Captures} {x : Char}
  {n : Nat}

/-! ## The walk over a run -/

theorem walk_one (next : Continuation) :
    (Regex.one set).walk next c = (c.over? set).bind next := rfl

theorem over?_of_accepts (hx : set.accepts x) :
    Cursor.over? set ⟨past, x :: rest, captures⟩ = some ⟨x :: past, rest, captures⟩ := if_pos hx

theorem over?_of_not_accepts (hx : ¬ set.accepts x) :
    Cursor.over? set ⟨past, x :: rest, captures⟩ = none := if_neg hx

/-- The cursor behind all characters that the set holds, up to the first that it does not. -/
def Cursor.behindRun (set : CharSet) (c : Cursor) : Cursor :=
  { c with
    past := (c.rest.takeWhile set.accepts).reverse ++ c.past
    rest := c.rest.dropWhile set.accepts }

theorem behindRun_of_accepts (hx : set.accepts x) :
    Cursor.behindRun set ⟨past, x :: rest, captures⟩ =
      Cursor.behindRun set ⟨x :: past, rest, captures⟩ := by
  simp [Cursor.behindRun, hx]

theorem behindRun_of_not_accepts (hx : ¬ set.accepts x) :
    Cursor.behindRun set ⟨past, x :: rest, captures⟩ = ⟨past, x :: rest, captures⟩ := by
  simp [Cursor.behindRun, hx]

/-- Given rounds enough, a greedy repetition of one character goes over the whole run. -/
theorem upToTimes_one (hn : c.rest.length < n) :
    upToTimes (Regex.one set).walk true n some c = some (c.behindRun set) := by
  induction n generalizing c with
  | zero => omega
  | succ n ih =>
    obtain ⟨past, rest, captures⟩ := c
    cases rest with
    | nil => rfl
    | cons x rest =>
      unfold upToTimes
      by_cases hx : set.accepts x
      · have hfurther := ih (c := ⟨x :: past, rest, captures⟩) (Nat.lt_of_succ_lt_succ hn)
        simp [walk_one, over?_of_accepts hx, hfurther, behindRun_of_accepts hx, Cursor.place]
      · simp [walk_one, over?_of_not_accepts hx, behindRun_of_not_accepts hx]

/-- The least number of rounds can be made exactly if the run is as long. -/
theorem exactlyTimes_one {next : Continuation} (hnext : ∀ c, next c = some (c.behindRun set)) :
    exactlyTimes (Regex.one set).walk n next c =
      if n ≤ (c.rest.takeWhile set.accepts).length then some (c.behindRun set) else none := by
  induction n generalizing c with
  | zero => simp [exactlyTimes, hnext]
  | succ n ih =>
    obtain ⟨past, rest, captures⟩ := c
    cases rest with
    | nil => rfl
    | cons x rest =>
      unfold exactlyTimes
      by_cases hx : set.accepts x
      · simp [walk_one, over?_of_accepts hx, ih, behindRun_of_accepts hx, hx]
      · simp [walk_one, over?_of_not_accepts hx, hx]

variable {text : Text} {source : String} {least : Nat}

/-- A run is found if it has the least length, and then as a whole. -/
theorem find_run : (run source set least).find (.number 0) text =
    if least ≤ (text.takeWhile set.accepts).length then .taken (text.takeWhile set.accepts)
    else .noMatch := by
  have hwalk : (run source set least).regex.first? text =
      if least ≤ (text.takeWhile set.accepts).length then
        some (Cursor.behindRun set ⟨[], text, []⟩)
      else none := exactlyTimes_one fun c => upToTimes_one (Nat.lt_succ_self _)
  have hplace :
      (Cursor.behindRun set ⟨[], text, []⟩).place = (text.takeWhile set.accepts).length := by
    simp [Cursor.behindRun, Cursor.place]
  rw [find_whole, hwalk]
  by_cases hleast : least ≤ (text.takeWhile set.accepts).length
  · have hwhole := List.prefix_iff_eq_take.mp (List.takeWhile_prefix (l := text) set.accepts)
    simp only [if_pos hleast, hplace, ← hwhole]
  · simp only [if_neg hleast]

/-- The pattern finds one character, the first of a run. -/
def FindsOne (set : CharSet) (p : Pattern) : Prop :=
  ∀ text, p.find (.number 0) text = match text.takeWhile set.accepts with
    | [] => .noMatch
    | x :: _ => .taken [x]

theorem findsOne_one : (one source set).FindsOne set := by
  intro text
  rw [find_whole]
  cases text with
  | nil => rfl
  | cons x rest =>
    have hwalk : (one source set).regex.first? (x :: rest) =
        (Cursor.over? set ⟨[], x :: rest, []⟩).bind some := rfl
    by_cases hx : set.accepts x
    · simp [hwalk, over?_of_accepts hx, hx, Cursor.place]
    · simp [hwalk, over?_of_not_accepts hx, hx]

/-- The written pattern of a blank is read as one with nothing behind it. -/
theorem exists_findsOne_blank : ∃ p, ofSource "\\s" {} = .ok p ∧ p.FindsOne blankSet := by
  have hone : (one "\\s" blankSet).FindsOne blankSet := findsOne_one
  exact ⟨{ source := "\\s", regex := .seq (.one blankSet) .empty }, rfl, hone⟩

end Pattern

/-! ## Runs in a text -/

/-- The longest run of characters of a set that stands at an offset. -/
def Text.runOf (text : Text) (set : Pattern.CharSet) (i : Int) : Text :=
  (text.remainder i).takeWhile set.accepts

/-- Behind the first character of a run stands the rest of it. -/
theorem Text.runOf_succ {text w : Text} {set : Pattern.CharSet} {i : Int} {x : Char} (h0 : 0 ≤ i)
    (h : text.runOf set i = x :: w) : text.runOf set (i + 1) = w := by
  have hnext : text.remainder (i + 1) = (text.remainder i).drop 1 := Text.remainder_add h0 1
  unfold runOf at h ⊢
  cases hrest : text.remainder i with
  | nil => simp [hrest] at h
  | cons y rest =>
    rw [hrest, List.takeWhile_cons] at h
    split at h
    · rw [hnext, hrest]
      exact (List.cons.inj h).2
    · cases h

namespace Leaf

variable {text w : Text} {set : Pattern.CharSet} {source : String} {least : Nat} {i : Int}
  {x : Char} {p : Pattern}

/-- What a leaf for a run comes to. -/
theorem attempt_run : (ofPattern (.run source set least)).attempt text i =
    .ok (if least ≤ (text.runOf set i).length then
        .success (i + (text.runOf set i).length) (.str (String.ofList (text.runOf set i)))
      else .failure i ("match " ++ source)) := by
  unfold Text.runOf
  by_cases hleast : least ≤ ((text.remainder i).takeWhile set.accepts).length
  · simp only [ofPattern, attempt, Pattern.find_run, if_pos hleast]
  · simp only [ofPattern, attempt, Pattern.find_run, if_neg hleast]
    rfl

theorem attempt_of_runOf_nil (hp : p.FindsOne set) (h : text.runOf set i = []) :
    (ofPattern p).attempt text i = .ok (.failure i ("match " ++ p.source)) := by
  have hfound := hp (text.remainder i)
  unfold Text.runOf at h
  rw [h] at hfound
  simp only [ofPattern, attempt, hfound]

theorem attempt_of_runOf_cons (hp : p.FindsOne set) (h : text.runOf set i = x :: w) :
    (ofPattern p).attempt text i = .ok (.success (i + 1) (.str (String.singleton x))) := by
  have hfound := hp (text.remainder i)
  unfold Text.runOf at h
  rw [h] at hfound
  simp only [ofPattern, attempt, hfound, String.singleton_eq_ofList]
  rfl

end Leaf

/-! ## Repetitions of one character -/

/-- The starts of a text of no fewer characters than a number, longest first. -/
def Text.startsFrom (least : Nat) (w : Text) : List Text := (w.inits.drop least).reverse

/-- The longest start of a text is the text. -/
theorem Text.exists_startsFrom (least : Nat) (w : Text) :
    ∃ shorter, w.startsFrom least = if least ≤ w.length then w :: shorter else [] := by
  have hlongest : ∃ shorter, w.inits.reverse = w :: shorter := by
    induction w with
    | nil => exact ⟨[], rfl⟩
    | cons x w ih =>
      obtain ⟨shorter, hshorter⟩ := ih
      exact ⟨shorter.map (x :: ·) ++ [[]], by simp [← List.map_reverse, hshorter]⟩
  obtain ⟨shorter, hshorter⟩ := hlongest
  unfold startsFrom
  rw [List.reverse_drop, hshorter, List.length_inits]
  by_cases hleast : least ≤ w.length
  · refine ⟨shorter.take (w.length - least), ?_⟩
    rw [if_pos hleast, Nat.succ_sub hleast, List.take_succ_cons]
  · refine ⟨[], ?_⟩
    rw [if_neg hleast, Nat.sub_eq_zero_of_le (by omega), List.take_zero]

namespace Outcome

/-- The success that takes the characters of a text one by one. -/
def oneByOne (i : Int) (w : Text) : Outcome :=
  .success (i + w.length) (.list (w.map fun c => .str (String.singleton c)))

/-- What repetitions of one character make of a run: a failure at its end, and then a success
for each of its starts. -/
def ofRun (source : String) (least : Nat) (i : Int) (w : Text) : List Outcome :=
  .failure (i + w.length) ("match " ++ source) :: (w.startsFrom least).map (oneByOne i)

variable {source : String} {i : Int} {x : Char} {w : Text} {least : Nat}

theorem consOnto_oneByOne :
    (oneByOne (i + 1) w).consOnto (.str (String.singleton x)) = oneByOne i (x :: w) := by
  simp only [oneByOne, consOnto, Value.elements?_list, Option.getD_some, List.map_cons,
    List.length_cons, success.injEq, and_true]
  omega

/-- With one more character before each of them, the starts of a run are those of the longer
run, without the empty one. -/
theorem map_consOnto_ofRun :
    (ofRun source 0 (i + 1) w).map (consOnto (.str (String.singleton x))) =
      ofRun source 1 i (x :: w) := by
  have hstop : i + 1 + (w.length : Int) = i + (x :: w).length := by
    rw [List.length_cons]
    omega
  have hstarts : Text.startsFrom 1 (x :: w) = (w.startsFrom 0).map (x :: ·) := by
    simp [Text.startsFrom]
  unfold ofRun
  rw [hstarts, List.map_cons, List.map_map, List.map_map, hstop]
  congr 1
  exact List.map_congr_left fun u _ => consOnto_oneByOne

theorem ofRun_zero : ofRun source 0 i w = ofRun source 1 i w ++ [.success i (.list [])] := by
  have hstarts : w.startsFrom 0 = w.startsFrom 1 ++ [[]] := by
    cases w <;> simp [Text.startsFrom]
  simp [ofRun, hstarts, oneByOne]

theorem successes_ofRun :
    successes (ofRun source least i w) = (w.startsFrom least).map (oneByOne i) := by
  unfold ofRun successes
  rw [List.filter_cons_of_neg Bool.false_ne_true, List.filter_eq_self]
  intro o ho
  obtain ⟨u, _, rfl⟩ := List.mem_map.mp ho
  rfl

end Outcome

namespace Parser

variable {rules : Rules} {text : Text} {set : Pattern.CharSet} {p : Pattern} {i j : Int} {m n : Nat}
  {v : Value} {further : Int → Script}

/-- One character gets past its start. -/
theorem lt_of_mem_ofPattern (hp : p.FindsOne set)
    (h : .success j v ∈ ((leaf (.ofPattern p)).script rules text m i).outcomes) : i < j := by
  rw [script_leaf, Script.mem_outcomes_ofResult] at h
  cases hrun : text.runOf set i with
  | nil =>
    rw [Leaf.attempt_of_runOf_nil hp hrun] at h
    cases h
  | cons x w =>
    rw [Leaf.attempt_of_runOf_cons hp hrun] at h
    cases h
    omega

/-- One character with further ones behind it, if these make of the rest of the run what they
should. -/
theorem holds_ofPattern_extended (hp : p.FindsOne set)
    (hfurther : ∀ x w, text.runOf set i = x :: w →
      (further (i + 1)).Holds [] (Outcome.ofRun p.source 0 (i + 1) w)) :
    (((leaf (.ofPattern p)).script rules text m i).expand (extended further)).Holds []
      (Outcome.ofRun p.source 1 i (text.runOf set i)) := by
  rw [script_leaf]
  cases hrun : text.runOf set i with
  | nil =>
    rw [Leaf.attempt_of_runOf_nil hp hrun]
    refine ⟨trivial, rfl, ?_⟩
    simp [Outcome.ofRun, Text.startsFrom, Script.ofResult, Script.expand, extended]
  | cons x w =>
    rw [Leaf.attempt_of_runOf_cons hp hrun, ← Outcome.map_consOnto_ofRun]
    have hrest := hfurther x w hrun
    have hmore := hrest.expand_single (g := Outcome.consOnto (.str (String.singleton x)))
    rwa [← Script.append_done (Script.expand _ _)] at hmore

/-- Repetitions of one character fail once, at the end of the run, and then give its starts. -/
theorem holds_repeated_ofPattern (hp : p.FindsOne set) (h0 : 0 ≤ i)
    (hn : (text.runOf set i).length < n) :
    (repeated ((leaf (.ofPattern p)).script rules text m) n i).Holds []
      (Outcome.ofRun p.source 0 i (text.runOf set i)) := by
  induction n generalizing i with
  | zero => omega
  | succ n ih =>
    rw [repeated_succ fun j v => lt_of_mem_ofPattern hp, moreOrNone, Script.holds_append_single]
    refine ⟨_, holds_ofPattern_extended hp ?_, Outcome.ofRun_zero⟩
    intro x w hrun
    have hrest := Text.runOf_succ h0 hrun
    rw [hrun, List.length_cons] at hn
    rw [← hrest] at hn ⊢
    exact ih (by omega) (by omega)

/-- Any number of one character. -/
theorem exhausts_many_ofPattern (hp : p.FindsOne set) (h0 : 0 ≤ i) :
    (leaf (.ofPattern p)).many.Exhausts rules text i []
      (Outcome.ofRun p.source 0 i (text.runOf set i)) := by
  rw [exhausts_iff_holds]
  refine ⟨(text.runOf set i).length + 1, ?_⟩
  rw [script_many]
  exact holds_repeated_ofPattern hp h0 (Nat.lt_succ_self _)

/-- One of a character or more. -/
theorem exhausts_many1_ofPattern (hp : p.FindsOne set) (h0 : 0 ≤ i) :
    (leaf (.ofPattern p)).many1.Exhausts rules text i []
      (Outcome.ofRun p.source 1 i (text.runOf set i)) := by
  rw [exhausts_iff_holds]
  refine ⟨(text.runOf set i).length, ?_⟩
  rw [script_many1]
  apply holds_ofPattern_extended hp
  intro x w hrun
  have hrest := Text.runOf_succ h0 hrun
  rw [hrun, List.length_cons, script_many, ← hrest]
  exact holds_repeated_ofPattern hp (by omega) (Nat.lt_succ_self _)

/-! ## The law of longest runs -/

/-- What is taken of a run at once beside what repetitions of one character give of it. -/
structure TakenAtOnce (i : Int) (least : Nat) (w : Text) (taken : Outcome)
    (outcomes : List Outcome) : Prop where
  /-- Where the repetitions have no success, nothing is taken at once. -/
  fails : Outcome.successes outcomes = [] → ∃ expect, taken = .failure i expect
  /-- What is taken at once is what the first success takes, with its values in one string. -/
  first : ∀ j v further, Outcome.successes outcomes = .success j v :: further →
    taken = .success j (.str (String.ofList v.letters))
  /-- The successes are the starts of the run, longest first. -/
  starts : Outcome.successes outcomes = (w.startsFrom least).map (Outcome.oneByOne i)

/-- Both the leaf and the parser come to their end without a fault, and record nothing. What
the leaf takes of the longest run of characters of the set is what the parser takes of it
one by one, no fewer than the least number. -/
def TakesAtOnce (rules : Rules) (text : Text) (i : Int) (set : Pattern.CharSet) (least : Nat)
    (l : Leaf) (p : Parser) : Prop :=
  ∃ taken outcomes,
    (leaf l).Exhausts rules text i [] [taken] ∧ p.Exhausts rules text i [] outcomes ∧
    TakenAtOnce i least (text.runOf set i) taken outcomes

theorem letters_oneByOne (w : Text) :
    (Value.list (w.map fun c => .str (String.singleton c))).letters = w := by
  rw [Value.letters]
  induction w with
  | nil => rfl
  | cons c w ih => simp [Value.lettersOfAll, Value.letters, ih]

/-- What a leaf for a run takes is taken at once. -/
theorem takenAtOnce_ofRun (source expect : String) (i : Int) (least : Nat) (w : Text) :
    TakenAtOnce i least w
      (if least ≤ w.length then .success (i + w.length) (.str (String.ofList w))
        else .failure i expect)
      (Outcome.ofRun source least i w) := by
  obtain ⟨shorter, hstarts⟩ := w.exists_startsFrom least
  refine ⟨?_, ?_, Outcome.successes_ofRun⟩
  · intro hnone
    rw [Outcome.successes_ofRun, hstarts] at hnone
    by_cases hleast : least ≤ w.length
    · simp [hleast] at hnone
    · exact ⟨expect, if_neg hleast⟩
  · intro j v further hfirst
    rw [Outcome.successes_ofRun, hstarts] at hfirst
    by_cases hleast : least ≤ w.length
    · rw [if_pos hleast] at hfirst ⊢
      cases (List.cons.inj hfirst).1
      rw [letters_oneByOne]
    · simp [hleast] at hfirst

theorem takesAtOnce_many (rules : Rules) (text : Text) (source : String) (hp : p.FindsOne set)
    (h0 : 0 ≤ i) : TakesAtOnce rules text i set 0 (.ofPattern (.run source set 0))
      (leaf (.ofPattern p)).many :=
  ⟨_, _, (exhausts_leaf_iff Leaf.attempt_run).mpr ⟨rfl, rfl⟩, exhausts_many_ofPattern hp h0,
    takenAtOnce_ofRun p.source ("match " ++ source) i 0 _⟩

theorem takesAtOnce_many1 (rules : Rules) (text : Text) (source : String) (hp : p.FindsOne set)
    (h0 : 0 ≤ i) : TakesAtOnce rules text i set 1 (.ofPattern (.run source set 1))
      (leaf (.ofPattern p)).many1 :=
  ⟨_, _, (exhausts_leaf_iff Leaf.attempt_run).mpr ⟨rfl, rfl⟩, exhausts_many1_ofPattern hp h0,
    takenAtOnce_ofRun p.source ("match " ++ source) i 1 _⟩

/-- From every start, be it behind the end of the text, the leaves for runs of letters, of
digits, of blanks and of all that breaks no line take what repetitions of one such character
take first. They fail where these have no success, the repetitions meet no fault, and their
other successes are the shorter starts of the run. -/
theorem longest_runs_are_taken_at_once (rules : Rules) (text : Text) (i : Nat) :
    TakesAtOnce rules text i Pattern.letterSet 1 .letters (leaf .letter).many1 ∧
    TakesAtOnce rules text i Pattern.digitSet 1 .digits (leaf .digit).many1 ∧
    (∃ blank, Pattern.ofSource "\\s" {} = .ok blank ∧
      TakesAtOnce rules text i Pattern.blankSet 1 .whitespace (leaf (.ofPattern blank)).many1) ∧
    TakesAtOnce rules text i .allButLineFeed 0 .allChars (leaf .anyChar).many := by
  have h0 : (0 : Int) ≤ i := Int.natCast_nonneg i
  obtain ⟨blank, hblank, hfinds⟩ := Pattern.exists_findsOne_blank
  refine ⟨?_, ?_, ⟨blank, hblank, ?_⟩, ?_⟩
  · exact takesAtOnce_many1 rules text "[a-z]+" Pattern.findsOne_one h0
  · exact takesAtOnce_many1 rules text "[0-9]+" Pattern.findsOne_one h0
  · exact takesAtOnce_many1 rules text "\\s+" hfinds h0
  · exact takesAtOnce_many rules text ".*" Pattern.findsOne_one h0

end Parser

end Backtrack
