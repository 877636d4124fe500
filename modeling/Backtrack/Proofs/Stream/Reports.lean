-- The laws of reports: a parse shows what is read of its script up to the first
-- success, reports on it and writes one record. With enough fuel this is what it
-- answers, and a report that it makes with any fuel is made of its script.
import Backtrack.Parse
import Backtrack.Proofs.Stream.Showing

namespace Backtrack

/-- What a parse of a text of some length answers when its stream shows this up to the
first success. -/
def Shown.reported (r : Shown) (length : Nat) : Action Report :=
  match r.stop with
  | .faulted fault => ⟨r.events, .error fault⟩
  | .satisfied | .exhausted =>
    let report := Report.ofOutcomes r.outcomes
    ⟨r.events ++ [.logged (report.record length)], .ok report⟩

theorem Shown.reported_after (r : Shown) (earlier : List Event) (length : Nat) :
    (r.after earlier).reported length = (r.reported length).after earlier := by
  cases hstop : r.stop <;> simp [reported, after, Action.after, hstop]

/-- The reading did not stop for its limit alone. -/
def Shown.Settled (wanted : Outcome → Bool) (r : Shown) : Prop :=
  r.stop = .satisfied → r.outcomes.any wanted

namespace Stream

variable {rules : Rules} {text : Text} {s : Stream} {fuel : Nat} {wanted : Outcome → Bool}

/-- A greater limit reads no further where the reading did not stop for its limit. -/
theorem read_of_limit_le {k m : Nat} (hkm : k ≤ m) {r : Reading}
    (h : s.read rules text fuel wanted k = some r) (hr : r.shown.Settled wanted) :
    s.read rules text fuel wanted m = some r := by
  induction k generalizing s r m with
  | zero =>
    cases h
    have hany := hr rfl
    cases hany
  | succ k ih =>
    obtain ⟨m, rfl⟩ : ∃ m', m = m' + 1 := ⟨m - 1, by omega⟩
    rcases hp : s.pull rules text fuel with _ | ⟨events, fault | _ | ⟨o, s'⟩⟩
    · simp [read, advance, hp] at h
    · rw [read_error hp] at h ⊢
      exact h
    · rw [read_ended hp] at h ⊢
      exact h
    · by_cases hw : wanted o = true
      · rw [read_wanted hp hw] at h ⊢
        exact h
      · rw [read_unwanted hp hw] at h ⊢
        obtain ⟨r', hr', rfl⟩ := Option.map_eq_some_iff.mp h
        have hsettled : r'.shown.Settled wanted := by
          intro hstop
          have hany := hr hstop
          simpa [Reading.shown, hw] using hany
        rw [ih (Nat.le_of_succ_le_succ hkm) hr' hsettled]
        rfl

/-- The report on a stream says what was read up to the first success. -/
theorem report_of_read {k : Nat} (hk : k ≤ fuel) {r : Reading}
    (h : s.read rules text fuel Outcome.isSuccess k = some r)
    (hr : r.shown.Settled Outcome.isSuccess) :
    (s.report rules text fuel).map Prod.fst = some (match r.stop with
      | .faulted fault => ⟨r.events, .error fault⟩
      | .satisfied | .exhausted => ⟨r.events, .ok (Report.ofOutcomes r.outcomes)⟩) := by
  rw [report, read_of_limit_le hk h hr]
  simp only [Option.bind_eq_bind, Option.bind_some]
  cases hstop : r.stop with
  | faulted fault => rfl
  | exhausted => rfl
  | satisfied =>
    have hany := hr hstop
    simp only [Reading.shown] at hany
    rw [if_pos hany]
    rfl

/-- A report on a stream says what was read up to the first success, and reading did not
stop before for its limit. -/
theorem read_of_report {a : Action Report}
    (h : (s.report rules text fuel).map Prod.fst = some a) :
    ∃ r, s.read rules text fuel Outcome.isSuccess fuel = some r ∧
      r.shown.Settled Outcome.isSuccess ∧ a = match r.stop with
        | .faulted fault => ⟨r.events, .error fault⟩
        | .satisfied | .exhausted => ⟨r.events, .ok (Report.ofOutcomes r.outcomes)⟩ := by
  rw [Stream.report] at h
  rcases hr : s.read rules text fuel Outcome.isSuccess fuel with _ | r
  · rw [hr] at h
    cases h
  · rw [hr] at h
    refine ⟨r, rfl, ?_⟩
    simp only [Option.bind_eq_bind, Option.bind_some] at h
    unfold Shown.Settled Reading.shown
    cases hstop : r.stop with
    | faulted fault =>
      simp only [hstop] at h
      cases h
      exact ⟨nofun, rfl⟩
    | exhausted =>
      simp only [hstop] at h
      cases h
      exact ⟨nofun, rfl⟩
    | satisfied =>
      simp only [hstop] at h
      split at h
      · rename_i hany
        cases h
        exact ⟨fun _ => hany, rfl⟩
      · cases h

end Stream

namespace Parser

variable {rules : Rules} {text : Text} {p : Parser}

/-- With enough fuel, a parse answers what is read of the script of its parser up to
the first success. -/
theorem parse_of_read_script {n k : Nat} {r : Shown}
    (h : (p.script rules text n 0).read Outcome.isSuccess (k + 1) = some r)
    (hr : r.Settled Outcome.isSuccess) :
    ∃ enough, ∀ fuel ≥ enough, p.parse rules fuel text = some (r.reported text.length) := by
  rcases runs_of_script rules text n p 0 with
    hu | ⟨called, fault, ⟨fuel, hs⟩, ht⟩ | ⟨called, s, rest, ⟨fuel, hs⟩, ht, hrest⟩
  · rw [hu] at h
    cases h
  · rw [ht, Script.read_withEvents] at h
    simp only [Script.read, Option.map_some, List.append_nil, Option.some.injEq] at h
    subst h
    refine ⟨fuel, fun m hm => ?_⟩
    exact Search.bind_error ((start_growing p 0).of_le hm hs) _
  · rw [ht, Script.read_withEvents] at h
    obtain ⟨r, hread, rfl⟩ := Option.map_eq_some_iff.mp h
    obtain ⟨enough, he⟩ := hrest.read
    obtain ⟨r', hr', rfl⟩ := he Outcome.isSuccess k r hread
    refine ⟨max fuel (max enough (k + 1)), fun m hm => ?_⟩
    have hstart := (start_growing p 0).of_le (m := m) (by omega) hs
    have hreport := Stream.report_of_read (k := k + 1) (by omega)
      (Stream.read_of_le (m := m) (by omega) hr') hr
    have hafter := Shown.reported_after r'.shown called text.length
    refine Eq.trans ?_ (congrArg some hafter.symm)
    refine Search.bind_ok hstart ?_
    rw [hreport]
    cases hstop : r'.stop <;> simp only [Shown.reported, Stream.Reading.shown, hstop] <;> rfl

/-- What a parse answers is what is read of the script of its parser up to the first
success. -/
theorem read_script_of_parse {fuel : Nat} {a : Action Report}
    (h : p.parse rules fuel text = some a) :
    ∃ n k r, (p.script rules text n 0).read Outcome.isSuccess (k + 1) = some r ∧
      r.Settled Outcome.isSuccess ∧ a = r.reported text.length := by
  rw [parse] at h
  rcases Search.of_bind h with ⟨called, fault, hs, rfl⟩ | ⟨called, s, y, hs, hy, rfl⟩
  · obtain ⟨n, hn⟩ := script_of_refused hs
    refine ⟨n, 0, ⟨called, [], .faulted fault⟩, ?_, nofun, rfl⟩
    rw [hn, Script.read_withEvents]
    simp [Script.read]
  · -- The step call has answered, so there is some fuel.
    obtain ⟨k, rfl⟩ : ∃ k, fuel = k + 1 := by
      cases fuel with
      | zero => cases hs
      | succ k => exact ⟨k, rfl⟩
    have hread : ∀ r : Stream.Reading,
        s.read rules text (k + 1) Outcome.isSuccess (k + 1) = some r →
        ∃ n, (p.script rules text n 0).read Outcome.isSuccess (k + 1) =
          some (r.shown.after called) := by
      intro r hr
      obtain ⟨m, hm⟩ := Stream.script_of_read hr
      obtain ⟨n, hn⟩ := script_of_start hs m
      refine ⟨n, Script.read_of_le hn ?_⟩
      rw [Action.script, Script.read_withEvents, hm]
      rfl
    rcases Search.of_bind hy with ⟨events, fault, hreport, rfl⟩ | ⟨events, report, y', hreport, hy', rfl⟩
    · obtain ⟨r, hr, hsettled, ha⟩ := Stream.read_of_report hreport
      obtain ⟨n, hn⟩ := hread r hr
      refine ⟨n, k, _, hn, hsettled, ?_⟩
      rw [Shown.reported_after]
      congr 1
      cases hstop : r.stop with
      | faulted fault' =>
        rw [hstop] at ha
        cases ha
        simp [Shown.reported, Stream.Reading.shown, hstop]
      | satisfied | exhausted =>
        rw [hstop] at ha
        cases ha
    · obtain ⟨r, hr, hsettled, ha⟩ := Stream.read_of_report hreport
      obtain ⟨n, hn⟩ := hread r hr
      refine ⟨n, k, _, hn, hsettled, ?_⟩
      rw [Shown.reported_after]
      cases hy'
      cases hstop : r.stop with
      | faulted fault' =>
        rw [hstop] at ha
        cases ha
      | satisfied | exhausted =>
        rw [hstop] at ha
        cases ha
        simp [Shown.reported, Stream.Reading.shown, hstop]
        rfl

/-- A report that a parse makes is made of outcomes of the script of its parser. -/
theorem script_of_parse {fuel : Nat} {events : List Event} {report : Report}
    (h : p.parse rules fuel text = some ⟨events, .ok report⟩) :
    ∃ n outcomes, outcomes <+: (p.script rules text n 0).outcomes ∧
      report = Report.ofOutcomes outcomes := by
  obtain ⟨n, k, r, hr, _, ha⟩ := read_script_of_parse h
  refine ⟨n, r.outcomes, Script.outcomes_prefix_of_read hr, ?_⟩
  have hresult := congrArg Action.result ha
  cases hstop : r.stop with
  | faulted fault =>
    simp only [Shown.reported, hstop] at hresult
    cases hresult
  | satisfied | exhausted =>
    simp only [Shown.reported, hstop] at hresult
    cases hresult
    rfl

end Parser

end Backtrack
