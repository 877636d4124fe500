-- The law of diagnosis: a parse that is asked for a value and has none says where it got
-- furthest and what was expected there. The error can always be told: every parser that
-- comes to an end without a fault has made an attempt, every attempt lies in the text,
-- and every offset of the text lies in one of its lines.
import Backtrack.Proofs.Furthest
import Backtrack.Proofs.Range
import Backtrack.Proofs.WholeText
import Mathlib.Data.List.TakeWhile

namespace Backtrack

/-! ## Positions -/

namespace Text

variable (text : Text) (offset : Int)

/-- The line of an offset is one of the lines of the text. -/
theorem exists_sourceLine_position :
    ∃ line, text.sourceLine? (text.position offset).line = some line := by
  have hlines := text.length_lines 0
  have hle : (text.position offset).line ≤ text.lines.length := by
    rw [hlines]
    exact Nat.succ_le_succ (List.takeWhile_sublist _).length_le
  have hpos : 1 ≤ (text.position offset).line := Nat.succ_le_succ (Nat.zero_le _)
  generalize (text.position offset).line = line at hle hpos
  refine ⟨text.lines[line - 1], ?_⟩
  have hindex : ((line : Int) - 1).toNat = line - 1 := by omega
  simp only [sourceLine?]
  rw [if_neg (by omega), if_neg (by omega), hindex]
  exact List.getElem?_eq_getElem (by omega)

/-- An offset of the text does not stand before the start of its line. -/
theorem one_le_column_position (h : 0 ≤ offset) : 1 ≤ (text.position offset).column := by
  have hpassed : ∀ stop ∈ (text.breakEnds 0).takeWhile
      fun (stop : Nat) => decide ((stop : Int) ≤ min offset text.length),
      (stop : Int) ≤ min offset text.length := by
    intro stop hstop
    simpa using List.mem_takeWhile_imp hstop
  simp only [position]
  generalize (text.breakEnds 0).takeWhile _ = passed at hpassed
  cases hlast : passed.getLast? with
  | none =>
    simp only [Option.getD_none]
    omega
  | some stop =>
    have hstop := hpassed stop (List.mem_of_getLast? hlast)
    simp only [Option.getD_some]
    omega

end Text

namespace ParseError

/-- Every error can be told. -/
theorem exists_message (e : ParseError) : ∃ message, e.message? = some message := by
  obtain ⟨line, hline⟩ := e.text.exists_sourceLine_position e.index
  unfold message? snippet? position
  rw [hline]
  exact ⟨_, rfl⟩

/-- The error names the greatest offset of the outcomes of a text, and what was expected
there by failures and, behind successes that do not take the whole text, of the end of
it: each expectation once, in the order in which they were first reported. Its offset
lies in the text, its line is a line of the text, and it can be told. -/
structure Diagnoses (e : ParseError) (text : Text) (outcomes : List Outcome) : Prop where
  text_eq : e.text = text
  in_text : 0 ≤ e.index ∧ e.index ≤ text.length
  reached : ∃ o ∈ outcomes, o.index = e.index
  furthest : ∀ o ∈ outcomes, o.index ≤ e.index
  expected_ne_nil : e.expected ≠ []
  nodup : e.expected.Nodup
  mem_expected : ∀ d, d ∈ e.expected ↔ ⟨e.index, d⟩ ∈ outcomes.map Outcome.expected
  in_order : e.expected.Pairwise fun d d' =>
    (outcomes.map Outcome.expected).idxOf ⟨e.index, d⟩ <
      (outcomes.map Outcome.expected).idxOf ⟨e.index, d'⟩
  position_eq : e.position = text.position e.index
  one_le_column : 1 ≤ e.position.column
  has_line : ∃ line, text.sourceLine? e.position.line = some line
  has_message : ∃ message, e.message? = some message

/-- The failures that got furthest are a diagnosis of outcomes in the text. -/
theorem diagnoses_furthest {text : Text} {outcomes : List Outcome} (hne : outcomes ≠ [])
    (hwithin : ∀ o ∈ outcomes, o.Within text 0) :
    let furthest := Report.furthest (outcomes.map Outcome.expected)
    Diagnoses ⟨text, furthest.1, furthest.2⟩ text outcomes := by
  intro furthest
  have hindex : ∀ o : Outcome, o.expected.index = o.index := fun o => by cases o <;> rfl
  have hreached : ∃ o ∈ outcomes, o.index = furthest.1 := by
    have hmap : outcomes.map Outcome.expected ≠ [] := by simp [hne]
    obtain ⟨e, he, hsame⟩ := Report.exists_index_eq_furthest hmap
    obtain ⟨o, ho, rfl⟩ := List.mem_map.mp he
    exact ⟨o, ho, (hindex o).symm.trans hsame⟩
  obtain ⟨o, ho, hsame⟩ := hreached
  have hin : 0 ≤ furthest.1 ∧ furthest.1 ≤ text.length := by
    have hrange := hwithin o ho
    simp only [Outcome.Within, hsame] at hrange
    omega
  refine
    { text_eq := rfl
      in_text := hin
      reached := ⟨o, ho, hsame⟩
      furthest := fun o' ho' => ?_
      expected_ne_nil := ?_
      nodup := Report.nodup_furthest _
      mem_expected := fun d => Report.mem_furthest
      in_order := Report.pairwise_furthest _
      position_eq := rfl
      one_le_column := text.one_le_column_position _ hin.1
      has_line := text.exists_sourceLine_position _
      has_message := exists_message _ }
  · rw [← hindex o']
    exact Report.index_le_furthest (List.mem_map_of_mem ho')
  · have hmem : o.expected.expect ∈ furthest.2 := by
      rw [Report.mem_furthest, ← hsame, ← hindex o]
      exact List.mem_map_of_mem ho
    exact List.ne_nil_of_mem hmem

end ParseError

/-! ## Parsers that make an attempt -/

namespace Script

/-- The script has an outcome if it ends without a fault. -/
def Attempts (s : Script) : Prop := s.Unbroken → s.outcomes ≠ []

variable {s t : Script}

theorem attempts_single (o : Outcome) : (single o).Attempts := by
  intro _
  simp

theorem attempts_ofResult (x : Except Fault Outcome) : (ofResult x).Attempts := by
  intro h
  cases x with
  | ok o => simp [ofResult, outcomes]
  | error fault => exact h.elim

theorem attempts_withEvents (events : List Event) (h : s.Attempts) :
    (withEvents events s).Attempts := by
  intro hs
  rw [outcomes_withEvents]
  exact h ((unbroken_withEvents _ _).mp hs)

theorem Attempts.append_left (hs : s.Attempts) : (s.append t).Attempts := by
  intro h
  obtain ⟨hleft, _⟩ := unbroken_append.mp h
  rw [outcomes_append hleft]
  simp [hs hleft]

theorem Attempts.expand {f : Outcome → Script} (hs : s.Attempts) (hf : ∀ o, (f o).Attempts) :
    (s.expand f).Attempts := by
  intro h
  obtain ⟨hleft, hall⟩ := unbroken_expand.mp h
  obtain ⟨o, ho⟩ := List.exists_mem_of_ne_nil _ (hs hleft)
  obtain ⟨o', ho'⟩ := List.exists_mem_of_ne_nil _ (hf o (hall o ho))
  rw [outcomes_expand h]
  exact List.ne_nil_of_mem (List.mem_flatMap.mpr ⟨o, ho, ho'⟩)

theorem Attempts.change (f : Outcome → Action Outcome) (hs : s.Attempts) :
    (s.change f).Attempts :=
  hs.expand fun _ => attempts_withEvents _ (attempts_ofResult _)

theorem Attempts.pairWith {second : Int → Script} (hs : s.Attempts)
    (hsecond : ∀ j, (second j).Attempts) : (s.pairWith second).Attempts := by
  refine hs.expand fun o => ?_
  cases o with
  | failure index expect => exact attempts_single _
  | success index value => exact (hsecond index).expand fun _ => attempts_single _

/-- What is asked to be absent is or is not, whatever it shows itself. -/
theorem attempts_negate (text : Text) (start : Int) (s : Script) : (s.negate text start).Attempts := by
  unfold negate
  induction s with
  | done => exact attempts_single _
  | raised | unread => exact False.elim
  | event e rest ih => exact ih
  | outcome o rest ih =>
    cases o with
    | success index value => exact attempts_single _
    | failure index expect => exact ih

end Script

namespace Parser

variable {rules : Rules} {text : Text} {p : Parser} {own : Int → Prop}

theorem attempts_repeated {body : Int → Script} (hbody : ∀ i, (body i).Attempts) (n : Nat) (i : Int) :
    (repeated body n i).Attempts := by
  induction n generalizing i with
  | zero => exact False.elim
  | succ n ih =>
    have hone := (hbody i).change (requireProgress · i)
    have hmore := (hone.pairWith ih).change (onValue consValues · i)
    exact hmore.append_left

/-- One level of recursion. -/
theorem Blind.attempts_scriptWith {recursive : Handle → Int → Script}
    (hr : ∀ handle i, (recursive handle i).Attempts) (n : Nat) (hp : p.Blind own) (i : Int) :
    (p.scriptWith text n recursive i).Attempts := by
  induction p generalizing i with
  | leaf l => exact Script.attempts_ofResult _
  | custom step => exact hp.elim
  | pair p q ihp ihq => exact (ihp hp.2.1 i).pairWith (ihq hp.2.2)
  | or p q ihp ihq => exact (ihp hp.2.1 i).append_left
  | mapOutcome change p ih => exact (ih hp.2 i).change _
  | not p ih => exact Script.attempts_negate text i _
  | many p ih => exact attempts_repeated (ih hp.2) n i
  | ref handle => exact hr handle i

/-- A parser without step functions of the user's never ends without an outcome. -/
theorem Blind.attempts (hrules : rules.All (Blind own)) (hp : p.Blind own) (n : Nat) (i : Int) :
    (p.script rules text n i).Attempts := by
  induction n generalizing p i with
  | zero =>
    have hunread : ∀ (_ : Handle) (_ : Int), Script.unread.Attempts := fun _ _ h => h.elim
    exact hp.attempts_scriptWith hunread 0 i
  | succ n ih =>
    refine hp.attempts_scriptWith (fun handle i => ?_) (n + 1) i
    cases hb : rules.body? handle with
    | none => exact False.elim
    | some body => exact ih (hrules handle body hb) i

end Parser

/-! ## Asking for a value -/

namespace Outcome

/-- The outcome is a success that a parse may answer: any, or one that takes the whole
text if so asked. -/
def accepted (text : Text) (toEnd : Bool) (o : Outcome) : Bool :=
  if toEnd then o.takesAll text else o.isSuccess

/-- What becomes of the outcome if the whole text is asked for, or not. -/
def asked (text : Text) (toEnd : Bool) (o : Outcome) : Outcome :=
  if toEnd then o.atEnd text else o

theorem asked_of_accepted {text : Text} {toEnd : Bool} {o : Outcome} (h : o.accepted text toEnd) :
    o.asked text toEnd = o := by
  cases toEnd with
  | false => rfl
  | true =>
    obtain ⟨v, rfl⟩ := takesAll_iff.mp h
    simp [asked, atEnd]

theorem accepted_of_takesAll {text : Text} {toEnd : Bool} {o : Outcome} (h : o.takesAll text) :
    o.accepted text toEnd := by
  obtain ⟨v, rfl⟩ := takesAll_iff.mp h
  cases toEnd with
  | false => rfl
  | true => exact h

theorem exists_of_accepted {text : Text} {toEnd : Bool} {o : Outcome} (h : o.accepted text toEnd) :
    ∃ j v, o = .success j v := by
  cases o with
  | success j v => exact ⟨j, v, rfl⟩
  | failure index expect => cases toEnd <;> cases h

/-- Asked or not, an outcome that is no answer is taken as at the end of the text. -/
theorem asked_of_not_accepted {text : Text} {toEnd : Bool} {o : Outcome}
    (h : ¬ o.accepted text toEnd) : o.asked text toEnd = o.atEnd text := by
  cases toEnd with
  | true => rfl
  | false =>
    cases o with
    | success index value => exact (h rfl).elim
    | failure index expect => rfl

end Outcome

/-- Outcomes that are no answer are reported as failures, before all that follows. -/
theorem Report.ofOutcomes_map_asked {text : Text} {toEnd : Bool} {before : List Outcome}
    (hbefore : ∀ o ∈ before, ¬ o.accepted text toEnd) (rest : List Outcome) :
    ofOutcomes (before.map (·.asked text toEnd) ++ rest) = match ofOutcomes rest with
      | success index value => success index value
      | failure errors => failure (before.map Outcome.expected ++ errors) := by
  have hsame : before.map (·.asked text toEnd) = before.map (·.atEnd text) :=
    List.map_congr_left fun o ho => Outcome.asked_of_not_accepted (hbefore o ho)
  rw [hsame]
  exact ofOutcomes_map_atEnd (fun o ho h => hbefore o ho (Outcome.accepted_of_takesAll h)) rest

namespace Parser

variable {rules : Rules} {text : Text} {p : Parser} {toEnd : Bool} {k : Nat} {shown : Shown}

/-- The report that is asked for, on the whole text or not. -/
def reportOn (rules : Rules) (fuel : Nat) (p : Parser) (text : Text) (toEnd : Bool) : Search Report :=
  if toEnd then p.parseToEnd rules fuel text else p.parse rules fuel text

/-- What is read of a parser up to the first answer decides the report. -/
theorem reportOn_of_read_script {n : Nat}
    (h : (p.script rules text n 0).read (Outcome.accepted text toEnd) (k + 1) = some shown)
    (hsettled : shown.Settled (Outcome.accepted text toEnd)) :
    ∃ enough, ∀ fuel ≥ enough, p.reportOn rules fuel text toEnd = some
      (Shown.reported { shown with outcomes := shown.outcomes.map (·.asked text toEnd) }
        text.length) := by
  cases toEnd with
  | true => exact parsesToEnd_of_read_script h hsettled
  | false =>
    obtain ⟨enough, he⟩ := parse_of_read_script h hsettled
    refine ⟨enough, fun fuel hfuel => ?_⟩
    have hsame : shown.outcomes.map (·.asked text false) = shown.outcomes := List.map_id _
    rw [hsame]
    exact he fuel hfuel

/-- With enough fuel, the report that is asked for ends in this way. -/
def Reports (rules : Rules) (text : Text) (p : Parser) (toEnd : Bool) (a : Action Report) : Prop :=
  ∃ enough, ∀ fuel ≥ enough, p.reportOn rules fuel text toEnd = some a

/-- The first answer is reported. -/
theorem reports_of_first {n m : Nat} (h : (p.script rules text n 0).take m = some shown)
    {before after : List Outcome} {j : Int} {v : Value}
    (hshown : shown.outcomes = before ++ .success j v :: after)
    (hv : (Outcome.success j v).accepted text toEnd)
    (hbefore : ∀ o ∈ before, ¬ o.accepted text toEnd) :
    ∃ a, p.Reports rules text toEnd a ∧ a.result = .ok (.success j v) := by
  obtain ⟨events, _, hread⟩ := Script.read_of_first h hshown hbefore hv
  refine ⟨_, reportOn_of_read_script hread fun _ => by simp [hv], ?_⟩
  have hreport := Report.ofOutcomes_map_asked hbefore [.success j v]
  simp [Shown.reported, Outcome.asked_of_accepted hv, hreport, Report.ofOutcomes]

/-- Without an answer, the fault of the stream or all of its outcomes are reported. -/
theorem reports_of_none {n m : Nat} (h : (p.script rules text n 0).take (m + 1) = some shown)
    (hstop : shown.stop ≠ .satisfied) (hnone : ∀ o ∈ shown.outcomes, ¬ o.accepted text toEnd) :
    ∃ a, p.Reports rules text toEnd a ∧
      (∀ fault, shown.stop = .faulted fault → a.result = .error fault) ∧
      (shown.stop = .exhausted → a.result = .ok (.failure (shown.outcomes.map Outcome.expected))) := by
  have hread := Script.read_of_take h hnone
  refine ⟨_, reportOn_of_read_script hread fun hs => (hstop hs).elim, fun fault hs => ?_, fun hs => ?_⟩
  · simp [Shown.reported, hs]
  · have hreport := Report.ofOutcomes_map_asked hnone []
    simp only [List.append_nil, Report.ofOutcomes] at hreport
    simp [Shown.reported, hs, hreport]

/-- The value that is asked for is that of the report. -/
theorem parseOrRaise_of_reportOn {fuel : Nat} {report : Action Report}
    (h : p.reportOn rules fuel text toEnd = some report) :
    p.parseOrRaise rules fuel text toEnd = some (report >>= valueOrRaise text) := by
  have hbind := Search.bind_ofAction report (valueOrRaise text)
  unfold reportOn at h
  unfold parseOrRaise
  cases toEnd with
  | true =>
    rw [if_pos rfl] at h
    simp only [if_true, h]
    exact hbind
  | false =>
    rw [if_neg Bool.false_ne_true] at h
    simp only [Bool.false_eq_true, if_false, h]
    exact hbind

/-- What a report is turned into. -/
theorem result_valueOrRaise (text : Text) (report : Action Report) :
    (report >>= valueOrRaise text).result = match report.result with
      | .error fault => .error fault
      | .ok (.success _ v) => .ok v
      | .ok (.failure errors) =>
        .error (.unparsed ⟨text, (Report.furthest errors).1, (Report.furthest errors).2⟩) := by
  simp only [bind, Action.andThen]
  rcases report.result with fault | report
  · rfl
  · cases report <;> rfl

/-- Making a value of a report records nothing more. -/
theorem events_valueOrRaise (text : Text) (report : Action Report) :
    (report >>= valueOrRaise text).events = report.events := by
  obtain ⟨events, fault | _ | errors⟩ := report
  · rfl
  · exact List.append_nil events
  · exact List.append_nil events

theorem result_valueOrRaise_eq_ok {report : Action Report} {v : Value} :
    (report >>= valueOrRaise text).result = .ok v ↔ ∃ j, report.result = .ok (.success j v) := by
  rw [result_valueOrRaise]
  rcases report.result with fault | _ | errors <;> simp

/-- With enough fuel, the report that is asked for and the value that is asked for end in
these ways. -/
def Answers (rules : Rules) (text : Text) (p : Parser) (toEnd : Bool) (report : Action Report)
    (answer : Action Value) : Prop :=
  ∃ enough, ∀ fuel ≥ enough, p.reportOn rules fuel text toEnd = some report ∧
    p.parseOrRaise rules fuel text toEnd = some answer

theorem Reports.answers {report : Action Report} (h : p.Reports rules text toEnd report) :
    p.Answers rules text toEnd report (report >>= valueOrRaise text) := by
  obtain ⟨enough, he⟩ := h
  exact ⟨enough, fun fuel hfuel => ⟨he fuel hfuel, parseOrRaise_of_reportOn (he fuel hfuel)⟩⟩

/-- The outcomes of a stream that has ended can be diagnosed. -/
theorem Blind.diagnoses {own : Int → Prop} (hrules : rules.All (Blind own)) (hp : p.Blind own)
    {n : Nat} (hn : (p.script rules text n 0).take (k + 1) = some shown)
    (hstop : shown.stop = .exhausted) :
    let furthest := Report.furthest (shown.outcomes.map Outcome.expected)
    ParseError.Diagnoses ⟨text, furthest.1, furthest.2⟩ text shown.outcomes := by
  obtain ⟨hunbroken, hall⟩ := Script.unbroken_of_take hn hstop
  rw [hall]
  refine ParseError.diagnoses_furthest (hp.attempts hrules n 0 hunbroken) fun o ho => ?_
  exact hp.outcome_within hrules ho

/-! ## The law of diagnosis -/

/-- Of a parser without step functions of the user's, whose stream comes to an end,
asking for a value gives the value v exactly if the report on the text is a success with
the value v, and some value exactly if some outcome is an answer. Without an answer, a
fault of the stream is the fault of the whole; and if there is no fault either, the error
that is raised is a diagnosis of the outcomes. -/
theorem failed_parses_are_diagnosed (hrules : rules.All (Blind fun _ => True))
    (hp : p.Blind fun _ => True) (toEnd : Bool) (h : p.Shows rules text 0 k shown)
    (hend : shown.stop ≠ .satisfied) :
    ∃ report answer, p.Answers rules text toEnd report answer ∧
      (∀ v, answer.result = .ok v ↔ ∃ j, report.result = .ok (.success j v)) ∧
      ((∃ v, answer.result = .ok v) ↔ ∃ o ∈ shown.outcomes, o.accepted text toEnd) ∧
      ((∀ o ∈ shown.outcomes, ¬ o.accepted text toEnd) →
        (∀ fault, shown.stop = .faulted fault → answer.result = .error fault) ∧
        (shown.stop = .exhausted → ∃ e : ParseError,
          answer.result = .error (.unparsed e) ∧ e.Diagnoses text shown.outcomes)) := by
  obtain ⟨n, m, hn⟩ := h.exists_take_script (Or.inl hend)
  cases hfirst : shown.outcomes.find? (Outcome.accepted text toEnd) with
  | some o =>
    obtain ⟨ho, before, after, hshown, hbefore⟩ := List.find?_eq_some_iff_append.mp hfirst
    obtain ⟨j, v, rfl⟩ := Outcome.exists_of_accepted ho
    have hskipped : ∀ o ∈ before, ¬ o.accepted text toEnd := fun o ho => by simpa using hbefore o ho
    obtain ⟨report, hreports, hreport⟩ := reports_of_first hn hshown ho hskipped
    have hmem : .success j v ∈ shown.outcomes := by simp [hshown]
    refine ⟨report, _, hreports.answers, fun _ => result_valueOrRaise_eq_ok, ⟨fun _ => ?_, fun _ => ?_⟩,
      fun hnone => (hnone _ hmem ho).elim⟩
    · exact ⟨_, hmem, ho⟩
    · exact ⟨v, result_valueOrRaise_eq_ok.mpr ⟨j, hreport⟩⟩
  | none =>
    have hnone : ∀ o ∈ shown.outcomes, ¬ o.accepted text toEnd := List.find?_eq_none.mp hfirst
    obtain ⟨report, hreports, hfaulted, hexhausted⟩ := reports_of_none hn hend hnone
    refine ⟨report, _, hreports.answers, fun _ => result_valueOrRaise_eq_ok, ⟨?_, ?_⟩,
      fun _ => ⟨fun fault hs => ?_, fun hs => ⟨_, ?_, hp.diagnoses hrules hn hs⟩⟩⟩
    · -- A stream that has ended has met a fault or not, and neither is reported as a success.
      rintro ⟨v, hv⟩
      obtain ⟨j, hj⟩ := result_valueOrRaise_eq_ok.mp hv
      cases hs : shown.stop with
      | satisfied => exact (hend hs).elim
      | faulted fault => cases (hfaulted fault hs).symm.trans hj
      | exhausted => cases (hexhausted hs).symm.trans hj
    · rintro ⟨o, ho, haccepted⟩
      exact (hnone o ho haccepted).elim
    · rw [result_valueOrRaise, hfaulted fault hs]
    · rw [result_valueOrRaise, hexhausted hs]

/-- A name behind any number of opening parentheses. -/
def nested : Rules :=
  ⟨#[some (((string "(").keepSecond (ref 0)).or ((string "x").describe "a name"))]⟩

theorem nested_all_blind : nested.All (Blind fun _ => True) := by
  intro handle body hb
  match handle with
  | 0 =>
    cases hb
    have hsecond : ((string "(").keepSecond (ref 0)).Blind fun _ => True :=
      ⟨.onValue fun _ _ _ => trivial, trivial, trivial, trivial⟩
    exact ⟨trivial, hsecond, .described _, trivial⟩
  | n + 1 => simp [Rules.body?, nested] at hb

/-- A name was found, but not the end of the text behind it. -/
theorem nested_misses_the_end_of_the_text :
    let outcomes : List Outcome :=
      [.failure 1 "string (", .success 2 (.str "x"), .failure 0 "a name"]
    nested.All (Blind fun _ => True) ∧ (ref 0).Blind (fun _ => True) ∧
      (ref 0).Shows nested ['(', 'x', ')'] 0 4 ⟨[], outcomes, .exhausted⟩ ∧
      ∃ report answer, (ref 0).Answers nested ['(', 'x', ')'] true report answer ∧
        ∃ e : ParseError, answer.result = .error (.unparsed e) ∧
          e.Diagnoses ['(', 'x', ')'] outcomes ∧ "end of string" ∈ e.expected := by
  intro outcomes
  have hp : (ref 0).Blind fun _ => True := trivial
  have hscript : ((ref 0).script nested ['(', 'x', ')'] 3 0).take 4 =
      some ⟨[], outcomes, .exhausted⟩ := rfl
  have hshows := shows_of_take_script hscript
  obtain ⟨report, answer, hanswers, _, _, hfailed⟩ :=
    failed_parses_are_diagnosed nested_all_blind hp true hshows Stream.Stop.noConfusion
  have hnone : ∀ o ∈ outcomes, ¬ o.accepted ['(', 'x', ')'] true := by decide
  obtain ⟨e, herror, he⟩ := (hfailed hnone).2 rfl
  -- No outcome lies behind the success, so it is the one that got furthest.
  have hindex : e.index = 2 := by
    obtain ⟨o, ho, hsame⟩ := he.reached
    have hsecond : 2 ≤ e.index := he.furthest (.success 2 (.str "x")) (by simp [outcomes])
    have hlast : ∀ o ∈ outcomes, o.index ≤ 2 := by decide
    have hle := hlast o ho
    omega
  refine ⟨nested_all_blind, hp, hshows, report, answer, hanswers, e, herror, he, ?_⟩
  rw [he.mem_expected, hindex]
  simp [outcomes, Outcome.expected]

end Parser

end Backtrack
