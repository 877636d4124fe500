-- The laws of runs: a step call followed by any number of pulls shows exactly the
-- script of the parser, which is written down depth first and without streams.
-- What later laws say of runs, they say with the three notions defined here, and
-- each of them can be read off the script.
import Backtrack.Proofs.Stream.Telling

namespace Backtrack

namespace Parser

/-! ## Notions of runs -/

/-- Read from an offset to its end, the parser gives the outcomes and no fault. -/
def Drains (rules : Rules) (text : Text) (p : Parser) (i : Int) (outcomes : List Outcome) : Prop :=
  ∃ fuel limit called s r, p.start rules text fuel i = some ⟨called, .ok s⟩ ∧
    s.take rules text fuel limit = some r ∧ r.stop = .exhausted ∧ r.outcomes = outcomes

/-- Read from an offset far enough, the parser gives the outcome. -/
def Yields (rules : Rules) (text : Text) (p : Parser) (i : Int) (o : Outcome) : Prop :=
  ∃ fuel limit called s r, p.start rules text fuel i = some ⟨called, .ok s⟩ ∧
    s.take rules text fuel limit = some r ∧ o ∈ r.outcomes

/-- The step call and every pull come to an answer, and after finitely many pulls
the stream has ended or met a fault. -/
def Halts (rules : Rules) (text : Text) (p : Parser) (i : Int) : Prop :=
  ∃ pulls enough, ∀ fuel ≥ enough,
    (∃ called fault, p.start rules text fuel i = some ⟨called, .error fault⟩) ∨
      ∃ called s r, p.start rules text fuel i = some ⟨called, .ok s⟩ ∧
        s.take rules text fuel pulls = some r ∧
        (r.stop = .exhausted ∨ ∃ fault, r.stop = .faulted fault)

variable {rules : Rules} {text : Text}

/-! ## Runs and scripts -/

/-- A stream that shows a script reads as the script does, for every limit. -/
theorem take_of_shownBy {t : Script} {s : Stream} (h : t.ShownBy rules text [] s) :
    ∃ enough, ∀ fuel ≥ enough, ∀ k r, t.take k = some r →
      ∃ r', s.take rules text fuel k = some r' ∧ r'.shown = r := by
  obtain ⟨enough, he⟩ := h.read
  refine ⟨enough, fun fuel hfuel k r hr => ?_⟩
  cases k with
  | zero =>
    rw [Script.take, Script.read_none] at hr
    cases hr
    exact ⟨_, rfl, rfl⟩
  | succ k =>
    obtain ⟨r', hr', hshown⟩ := he _ k r hr
    exact ⟨r', Stream.read_of_le hfuel hr', hshown⟩

/-- The step call either meets the fault that the script begins with, or answers a
stream that shows the rest of the script. -/
theorem runs_of_script (rules : Rules) (text : Text) (n : Nat) (p : Parser) (i : Int) :
    p.script rules text n i = .unread ∨
      (∃ called fault, p.Starts rules text i ⟨called, .error fault⟩ ∧
        p.script rules text n i = .withEvents called (.raised fault)) ∨
      ∃ called s rest, p.Starts rules text i ⟨called, .ok s⟩ ∧
        p.script rules text n i = .withEvents called rest ∧ rest.ShownBy rules text [] s := by
  have h : (p.script rules text n i).OpenedBy rules text p i := Script.openedBy_script n p i
  generalize p.script rules text n i = t at h
  cases h with
  | unread => exact Or.inl rfl
  | raised h => exact Or.inr (Or.inl ⟨_, _, h, rfl⟩)
  | running h ht => exact Or.inr (Or.inr ⟨_, _, _, h, rfl, ht⟩)

/-- What the step call of a parser and the reading of its stream show stands in
the script of the parser. -/
theorem script_of_run {fuel limit : Nat} {p : Parser} {i : Int} {called : List Event} {s : Stream}
    {r : Stream.Reading} (hs : p.start rules text fuel i = some ⟨called, .ok s⟩)
    (hr : s.take rules text fuel limit = some r) :
    ∃ n rest, .withEvents called rest ≤ p.script rules text n i ∧
      rest.take limit = some r.shown := by
  obtain ⟨m, hm⟩ := Stream.script_of_read hr
  obtain ⟨n, hn⟩ := script_of_start hs m
  exact ⟨n, s.script rules text m, hn, hm⟩

/-- A parser that can be drained has a script without a fault, which holds the same
outcomes. -/
theorem Drains.script {p : Parser} {i : Int} {outcomes : List Outcome}
    (h : p.Drains rules text i outcomes) :
    ∃ n, (p.script rules text n i).Unbroken ∧ (p.script rules text n i).outcomes = outcomes := by
  obtain ⟨fuel, limit, called, s, r, hs, hr, hstop, rfl⟩ := h
  obtain ⟨n, rest, hle, htake⟩ := script_of_run hs hr
  obtain ⟨hu, ho⟩ := Script.unbroken_of_take htake hstop
  have hwhole : (Script.withEvents called rest).Unbroken := Script.unbroken_withEvents _ _ |>.mpr hu
  refine ⟨n, ?_⟩
  rw [← hwhole.whole.eq_of_le hle]
  exact ⟨hwhole, by rw [Script.outcomes_withEvents, ← ho]; rfl⟩

/-- A parser with a script without a fault can be drained. -/
theorem drains_of_unbroken {p : Parser} {i : Int} {n : Nat}
    (h : (p.script rules text n i).Unbroken) :
    p.Drains rules text i (p.script rules text n i).outcomes := by
  rcases runs_of_script rules text n p i with
    hu | ⟨called, fault, _, ht⟩ | ⟨called, s, rest, ⟨fuel, hs⟩, ht, hrest⟩
  · rw [hu] at h
    exact h.elim
  · rw [ht, Script.unbroken_withEvents] at h
    exact h.elim
  · rw [ht, Script.unbroken_withEvents] at h
    rw [ht, Script.outcomes_withEvents]
    obtain ⟨r, hr, ho, hstop⟩ := h.whole.take
    obtain ⟨enough, he⟩ := take_of_shownBy hrest
    obtain ⟨r', hr', rfl⟩ := he (max fuel enough) (Nat.le_max_right fuel enough) _ r hr
    refine ⟨max fuel enough, _, called, s, r', ?_, hr', ?_, ho⟩
    · exact (start_growing p i).of_le (Nat.le_max_left fuel enough) hs
    · exact hstop.resolve_right fun hfault => hfault.1 h

/-- Every outcome of a script is met by a run of its parser. -/
theorem yields_of_mem_script {p : Parser} {i : Int} {n : Nat} {o : Outcome}
    (h : o ∈ (p.script rules text n i).outcomes) : p.Yields rules text i o := by
  rcases runs_of_script rules text n p i with
    hu | ⟨called, fault, _, ht⟩ | ⟨called, s, rest, ⟨fuel, hs⟩, ht, hrest⟩
  · rw [hu] at h
    cases h
  · rw [ht, Script.outcomes_withEvents] at h
    cases h
  · rw [ht, Script.outcomes_withEvents] at h
    obtain ⟨k, r, hr, ho⟩ := Script.take_of_mem h
    obtain ⟨enough, he⟩ := take_of_shownBy hrest
    obtain ⟨r', hr', rfl⟩ := he (max fuel enough) (Nat.le_max_right fuel enough) k r hr
    exact ⟨_, k, called, s, r', (start_growing p i).of_le (Nat.le_max_left fuel enough) hs, hr', ho⟩

/-- Every outcome that a run meets stands in a script of the parser. -/
theorem Yields.mem_script {p : Parser} {i : Int} {o : Outcome} (h : p.Yields rules text i o) :
    ∃ n, o ∈ (p.script rules text n i).outcomes := by
  obtain ⟨fuel, limit, called, s, r, hs, hr, ho⟩ := h
  obtain ⟨n, rest, hle, htake⟩ := script_of_run hs hr
  refine ⟨n, (Script.outcomes_prefix_of_le hle).mem ?_⟩
  rw [Script.outcomes_withEvents]
  exact (Script.outcomes_prefix_of_take htake).mem ho

/-- A parser whose script is known to its end comes to an end. -/
theorem halts_of_whole {p : Parser} {i : Int} {n : Nat} (h : (p.script rules text n i).Whole) :
    p.Halts rules text i := by
  rcases runs_of_script rules text n p i with
    hu | ⟨called, fault, ⟨fuel, hs⟩, _⟩ | ⟨called, s, rest, ⟨fuel, hs⟩, ht, hrest⟩
  · rw [hu] at h
    exact h.elim
  · exact ⟨0, fuel, fun m hm => Or.inl ⟨called, fault, (start_growing p i).of_le hm hs⟩⟩
  · rw [ht, Script.whole_withEvents] at h
    obtain ⟨r, hr, _, hstop⟩ := h.take
    obtain ⟨enough, he⟩ := take_of_shownBy hrest
    refine ⟨rest.outcomes.length + 1, max fuel enough, fun m hm => Or.inr ?_⟩
    obtain ⟨r', hr', rfl⟩ := he m (Nat.le_trans (Nat.le_max_right fuel enough) hm) _ r hr
    exact ⟨called, s, r', (start_growing p i).of_le (Nat.le_trans (Nat.le_max_left fuel enough) hm) hs,
      hr', hstop.imp_right And.right⟩

/-! ## The law of runs -/

/-- With enough fuel, the step call and any number of pulls show the script of the
parser, if that is known to its end: the step call records the events with which
the script begins, and each number of pulls shows the outcomes and the events of
what is left, up to that number of outcomes and not further. A fault of the step
call is all of the script. -/
theorem pulling_shows_the_script (rules : Rules) (text : Text) (p : Parser) (i : Int) (limit : Nat)
    (h : (p.script rules text limit i).Whole) :
    ∃ enough, ∀ fuel ≥ enough,
      (∃ called fault, p.start rules text fuel i = some ⟨called, .error fault⟩ ∧
        p.script rules text limit i = .withEvents called (.raised fault)) ∨
      ∃ called s rest, p.start rules text fuel i = some ⟨called, .ok s⟩ ∧
        p.script rules text limit i = .withEvents called rest ∧
        ∀ k, ∃ r, s.take rules text fuel k = some r ∧ rest.take k = some r.shown := by
  rcases runs_of_script rules text limit p i with
    hu | ⟨called, fault, ⟨fuel, hs⟩, ht⟩ | ⟨called, s, rest, ⟨fuel, hs⟩, ht, hrest⟩
  · rw [hu] at h
    exact h.elim
  · exact ⟨fuel, fun m hm => Or.inl ⟨called, fault, (start_growing p i).of_le hm hs, ht⟩⟩
  · rw [ht, Script.whole_withEvents] at h
    obtain ⟨enough, he⟩ := take_of_shownBy hrest
    refine ⟨max fuel enough, fun m hm => Or.inr ⟨called, s, rest, ?_, ht, fun k => ?_⟩⟩
    · exact (start_growing p i).of_le (Nat.le_trans (Nat.le_max_left fuel enough) hm) hs
    · obtain ⟨r, hr⟩ := h.read (fun _ => false) k
      obtain ⟨r', hr', rfl⟩ := he m (Nat.le_trans (Nat.le_max_right fuel enough) hm) k r hr
      exact ⟨r', hr', hr⟩

/-- A step function that is called at once and faults behind its first outcome, with
repetitions behind that outcome. -/
theorem pulling_shows_a_fault_behind_outcomes :
    let p : Parser := (custom fun _ i => ⟨[.called "p" i], .ok <| .outcome (.success (i + 1) .none) <|
      .event (.pulled "p" 2) (.raised (.raised "stop"))⟩).pair (leaf .anyChar).many
    (p.script .empty ['a', 'b', 'c'] 4 0).Whole ∧
    ∃ enough, ∀ fuel ≥ enough,
      (∃ called fault, p.start .empty ['a', 'b', 'c'] fuel 0 = some ⟨called, .error fault⟩ ∧
        p.script .empty ['a', 'b', 'c'] 4 0 = .withEvents called (.raised fault)) ∨
      ∃ called s rest, p.start .empty ['a', 'b', 'c'] fuel 0 = some ⟨called, .ok s⟩ ∧
        p.script .empty ['a', 'b', 'c'] 4 0 = .withEvents called rest ∧
        ∀ k, ∃ r, s.take .empty ['a', 'b', 'c'] fuel k = some r ∧ rest.take k = some r.shown :=
  ⟨trivial, pulling_shows_the_script .empty ['a', 'b', 'c'] _ 0 4 trivial⟩

end Parser

end Backtrack
