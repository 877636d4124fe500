-- The law of the log: a parse says what is met up to the first success, and writes one
-- record of it, or none. What a parse reads is what seeking the first success shows. The
-- scripts that it reads are watched, so nothing is in the log before its own record, and
-- a fault leaves it without one.
import Backtrack.Proofs.Conduct
import Backtrack.Proofs.Diagnosis
import Backtrack.Proofs.Seeking

namespace Backtrack

/-! ## Reports on what is sought -/

/-- Failures are reported before all that follows. -/
theorem Report.ofOutcomes_failures {before : List Outcome} (hbefore : ∀ o ∈ before, ¬ o.isSuccess)
    (rest : List Outcome) : ofOutcomes (before ++ rest) = match ofOutcomes rest with
      | success index value => success index value
      | failure errors => failure (before.map Outcome.expected ++ errors) := by
  have hreport := @ofOutcomes_map_asked [] false before hbefore rest
  have hsame : before.map (Outcome.asked [] false) = before := List.map_id _
  rwa [hsame] at hreport

namespace Shown

variable {events : List Event} {outcomes before : List Outcome} {j : Int} {v : Value}

/-- What is sought is settled. -/
theorem UpToSuccess.settled {r : Shown} (h : r.UpToSuccess) : r.Settled Outcome.isSuccess := by
  intro hstop
  obtain ⟨events, outcomes, stop⟩ := r
  cases hstop
  obtain ⟨before, j, v, rfl, _⟩ := h
  simp [Outcome.isSuccess]

theorem reported_satisfied (hbefore : ∀ o ∈ before, ¬ o.isSuccess) (length : Nat) :
    reported ⟨events, before ++ [.success j v], .satisfied⟩ length =
      ⟨events ++ [.logged (.parsed j length)], .ok (.success j v)⟩ := by
  simp only [reported, Report.ofOutcomes_failures hbefore]
  rfl

theorem reported_exhausted (hnone : ∀ o ∈ outcomes, ¬ o.isSuccess) (length : Nat) :
    reported ⟨events, outcomes, .exhausted⟩ length =
      ⟨events ++ [.logged (.failed outcomes.length)],
        .ok (.failure (outcomes.map Outcome.expected))⟩ := by
  have hreport : Report.ofOutcomes outcomes = .failure (outcomes.map Outcome.expected) := by
    simpa [Report.ofOutcomes] using Report.ofOutcomes_failures hnone []
  simp only [reported, hreport, Report.record, List.length_map]

end Shown

namespace Script

variable {s : Script} {r : Shown}

/-- What is sought is what is read up to the first success, by as many pulls as it takes. -/
theorem read_of_seek (h : s.seek = some r) : s.read Outcome.isSuccess r.pulls = some r := by
  obtain ⟨hfirst, htake⟩ := take_of_seek h
  obtain ⟨events, outcomes, stop⟩ := r
  cases stop with
  | exhausted | faulted => exact read_of_take htake hfirst
  | satisfied =>
    obtain ⟨before, j, v, rfl, hbefore⟩ := hfirst
    have hpulls : Shown.pulls ⟨events, before ++ [.success j v], .satisfied⟩ = before.length + 1 := by
      simp [Shown.pulls]
    obtain ⟨pulled, htake', hread⟩ := read_of_first htake rfl hbefore rfl
    rw [hpulls] at htake ⊢
    cases htake.symm.trans htake'
    exact hread

/-- What is read up to the first success is what is sought, unless it stopped for its
limit before. -/
theorem seek_of_read {n : Nat} (h : s.read Outcome.isSuccess n = some r)
    (hsettled : r.Settled Outcome.isSuccess) : s.seek = some r := by
  cases n with
  | zero =>
    rw [read_none] at h
    cases h
    cases hsettled rfl
  | succ n =>
    induction s generalizing n r with
    | done | raised | unread => exact h
    | event e rest ih =>
      obtain ⟨r', hr', rfl⟩ := Option.map_eq_some_iff.mp h
      rw [seek, ih (r := r') hsettled n hr']
      rfl
    | outcome o rest ih =>
      cases o with
      | success index value => exact h
      | failure index expect =>
        obtain ⟨r', hr', rfl⟩ := Option.map_eq_some_iff.mp h
        have hrest : r'.Settled Outcome.isSuccess := hsettled
        cases n with
        | zero =>
          rw [read_none] at hr'
          cases hr'
          cases hrest rfl
        | succ n =>
          rw [seek, ih hrest n hr']
          rfl

end Script

namespace Parser

variable {own : Fault → Prop} {rules : Rules} {text : Text} {p : Parser} {r : Shown}

/-- The parser that reads the text if the whole of it is asked for, or not. -/
def asked (toEnd : Bool) (p : Parser) : Parser := if toEnd then p.toEnd else p

theorem reportOn_eq (rules : Rules) (fuel : Nat) (p : Parser) (text : Text) (toEnd : Bool) :
    p.reportOn rules fuel text toEnd = (p.asked toEnd).parse rules fuel text := by
  cases toEnd <;> rfl

/-- A parse reports on what is sought from the start of the text, and on nothing else. -/
theorem reports_iff_seeks {toEnd : Bool} {a : Action Report} : p.Reports rules text toEnd a ↔
    ∃ r, (p.asked toEnd).Seeks rules text 0 r ∧ a = r.reported text.length := by
  simp only [Reports, reportOn_eq, seeks_iff_seek_script]
  constructor
  · rintro ⟨enough, h⟩
    obtain ⟨n, k, r, hread, hsettled, rfl⟩ := read_script_of_parse (h enough (Nat.le_refl _))
    exact ⟨r, ⟨n, Script.seek_of_read hread hsettled⟩, rfl⟩
  · rintro ⟨r, ⟨n, hn⟩, rfl⟩
    have hfirst := (Script.take_of_seek hn).1
    have hread := Script.read_of_seek hn
    obtain ⟨k, hk⟩ := hfirst.exists_pulls
    rw [hk] at hread
    exact parse_of_read_script hread hfirst.settled

/-! ## Parsers that write no records -/

/-- To ask for the whole text adds nothing that records or raises anything. -/
theorem Quiet.toEnd (hp : p.Quiet own rules text) : p.toEnd.Quiet own rules text := by
  have hend : endOfText.Quiet own rules text := by
    intro i fault h
    rw [Leaf.attempt] at h
    split at h <;> cases h
  exact ⟨.onValue fun _ => .pure _, trivial, hp, hend⟩

theorem Quiet.asked (toEnd : Bool) (hp : p.Quiet own rules text) :
    (p.asked toEnd).Quiet own rules text := by
  cases toEnd with
  | true => exact hp.toEnd
  | false => exact hp

/-- What is met up to the first success ends in a refusal, or has nothing in the log. -/
theorem Quiet.seeks (hrules : rules.All (Quiet own rules text)) (hp : p.Quiet own rules text) {i : Int}
    (h : p.Seeks rules text i r) : (∃ offset, r.Refuses offset) ∨ r.Quiet own := by
  obtain ⟨n, hn⟩ := seeks_iff_seek_script.mp h
  exact (hp.watched hrules n i).read (Script.take_of_seek hn).2

end Parser

/-! ## The law of the log -/

namespace Shown

/-- The report on a text, and the answer where its value is asked for, say what was met up
to the first success, and so does the log. A success is recorded with its end, and without
one all failures are reported and their number is recorded. A fault stays as it is: it
refuses a repetition, and the record of this is the only one and the last that happened, or
it is one of the given ones, and nothing is recorded. -/
structure Recorded (own : Fault → Prop) (text : Text) (r : Shown) (report : Action Report)
    (answer : Action Value) : Prop where
  events_eq : answer.events = report.events
  satisfied : r.stop = .satisfied → ∃ before j v,
    r.outcomes = before ++ [.success j v] ∧ (∀ o ∈ before, ¬ o.isSuccess) ∧
      report = ⟨r.events ++ [.logged (.parsed j text.length)], .ok (.success j v)⟩ ∧
      answer.result = .ok v ∧ Event.log report.events = [.parsed j text.length]
  exhausted : r.stop = .exhausted → ∃ errors,
    r.outcomes = errors.map (fun e => .failure e.index e.expect) ∧
      report = ⟨r.events ++ [.logged (.failed errors.length)], .ok (.failure errors)⟩ ∧
      answer.result =
        .error (.unparsed ⟨text, (Report.furthest errors).1, (Report.furthest errors).2⟩) ∧
      Event.log report.events = [.failed errors.length]
  faulted : ∀ fault, r.stop = .faulted fault →
    report = ⟨r.events, .error fault⟩ ∧ answer.result = .error fault ∧
      ((∃ offset, fault = .emptyRepetition offset ∧
        Event.log report.events = [.emptyRepetition offset] ∧
        report.events.getLast? = some (.logged (.emptyRepetition offset))) ∨
      own fault ∧ Event.log report.events = [])

variable {own : Fault → Prop} {r : Shown}

/-- A log in which nothing stands before the record of the parse. -/
theorem log_append_record (h : Event.log r.events = []) (record : Record) :
    Event.log (r.events ++ [.logged record]) = [record] := by
  rw [Event.log_append, h]
  rfl

/-- Without a fault, no repetition was refused. -/
theorem quiet_of_not_faulted (h : (∃ offset, r.Refuses offset) ∨ r.Quiet own)
    (hstop : ∀ fault, r.stop ≠ .faulted fault) : r.Quiet own := by
  rcases h with ⟨offset, hrefuses⟩ | hquiet
  · exact (hstop _ hrefuses.stop_eq).elim
  · exact hquiet

/-- Failures are what is reported of them. -/
theorem map_expected_failures {outcomes : List Outcome} (hnone : ∀ o ∈ outcomes, ¬ o.isSuccess) :
    (outcomes.map Outcome.expected).map (fun e => Outcome.failure e.index e.expect) = outcomes := by
  rw [List.map_map]
  refine (List.map_congr_left fun o ho => ?_).trans (List.map_id outcomes)
  cases o with
  | success index value => exact (hnone _ ho rfl).elim
  | failure index expect => rfl

/-- What was met up to the first success decides the report and the log. -/
theorem UpToSuccess.recorded (hfirst : r.UpToSuccess)
    (hwatched : (∃ offset, r.Refuses offset) ∨ r.Quiet own) (text : Text) :
    r.Recorded own text (r.reported text.length)
      (r.reported text.length >>= Parser.valueOrRaise text) := by
  have hlog := quiet_of_not_faulted hwatched
  obtain ⟨events, outcomes, stop⟩ := r
  refine ⟨?_, fun hstop => ?_, fun hstop => ?_, fun fault hstop => ?_⟩
  · exact Parser.events_valueOrRaise text _
  · cases hstop
    obtain ⟨before, j, v, rfl, hbefore⟩ := hfirst
    refine ⟨before, j, v, rfl, hbefore, reported_satisfied hbefore _, ?_, ?_⟩
    · rw [reported_satisfied hbefore]
      rfl
    · rw [reported_satisfied hbefore]
      exact log_append_record (hlog nofun).log_eq _
  · cases hstop
    refine ⟨outcomes.map Outcome.expected, (map_expected_failures hfirst).symm, ?_, ?_, ?_⟩
    · rw [reported_exhausted hfirst, List.length_map]
    · rw [reported_exhausted hfirst]
      rfl
    · rw [reported_exhausted hfirst, List.length_map]
      exact log_append_record (hlog nofun).log_eq _
  · cases hstop
    refine ⟨rfl, rfl, ?_⟩
    rcases hwatched with ⟨offset, hrefuses⟩ | hquiet
    · have hfault := hrefuses.stop_eq
      cases hfault
      exact Or.inl ⟨offset, rfl, hrefuses.log_eq, hrefuses.last_eq⟩
    · exact Or.inr ⟨hquiet.own_of_stop fault rfl, hquiet.log_eq⟩

end Shown

namespace Parser

variable {own : Fault → Prop} {rules : Rules} {text : Text} {p : Parser} {r : Shown}

/-- A parser whose step functions and functions of outcomes write no records, and which can
be read from the start of the text up to its first success, or to its end if it has none:
with enough fuel, asking for a report or for the value says what is met there and nothing
else, and writes one record, or none if a fault is met that refuses no repetition. So it is
if the whole text is asked for, too. -/
theorem a_parse_is_recorded_once (hrules : rules.All (Quiet own rules text))
    (hp : p.Quiet own rules text) (toEnd : Bool) (hr : (p.asked toEnd).Seeks rules text 0 r) :
    ∃ report answer, p.Answers rules text toEnd report answer ∧ r.Recorded own text report answer := by
  have hreports : p.Reports rules text toEnd (r.reported text.length) :=
    reports_iff_seeks.mpr ⟨r, hr, rfl⟩
  exact ⟨_, _, hreports.answers, hr.first.recorded ((hp.asked toEnd).seeks hrules hr) text⟩

/-- A step function that takes one character, and nothing at the end of the text. -/
def idling : Parser := custom fun text i => ⟨[.called "p" i], .ok <|
  .event (.pulled "p" 1) <| .outcome (.success (min (i + 1) text.length) .none) .done⟩

/-- Repetitions of it are refused at the end of the text, before that can be asked for. -/
theorem idling_is_recorded_once :
    let never : Fault → Prop := fun _ => False
    let events : List Event := [.called "p" 0, .pulled "p" 1, .called "p" 1, .pulled "p" 1,
      .logged (.emptyRepetition 1)]
    Rules.empty.All (Quiet never .empty ['a']) ∧ idling.many.Quiet never .empty ['a'] ∧
      (idling.many.asked true).Seeks .empty ['a'] 0 ⟨events, [], .faulted (.emptyRepetition 1)⟩ ∧
      ∃ report answer, idling.many.Answers .empty ['a'] true report answer ∧
        answer.result = .error (.emptyRepetition 1) ∧ Event.log report.events = [.emptyRepetition 1] := by
  intro never events
  have hp : idling.many.Quiet never .empty ['a'] := ⟨trivial, fun i => ⟨rfl, fun _ => id⟩⟩
  have hscript : ((idling.many.asked true).script .empty ['a'] 2 0).seek =
      some ⟨events, [], .faulted (.emptyRepetition 1)⟩ := rfl
  have hr := seeks_iff_seek_script.mpr ⟨2, hscript⟩
  have hrules := Rules.empty_all (Quiet never .empty ['a'])
  obtain ⟨report, answer, hanswers, hrecorded⟩ := a_parse_is_recorded_once hrules hp true hr
  obtain ⟨_, hanswer, hlog⟩ := hrecorded.faulted _ rfl
  refine ⟨hrules, hp, hr, report, answer, hanswers, hanswer, ?_⟩
  rcases hlog with ⟨offset, hfault, hlog, _⟩ | ⟨hnever, _⟩
  · cases hfault
    exact hlog
  · exact hnever.elim

end Parser

end Backtrack
