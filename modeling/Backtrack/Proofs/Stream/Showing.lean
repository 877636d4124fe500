-- What a run shows as a whole: its step call and its pulls taken together. A parser
-- shows exactly what can be read of its script, so laws of scripts are laws of runs.
import Backtrack.Proofs.Script.Contents
import Backtrack.Proofs.Script.Ending
import Backtrack.Proofs.Stream.Runs

namespace Backtrack

/-- What is shown, with earlier events before it. -/
def Shown.after (r : Shown) (earlier : List Event) : Shown := { r with events := earlier ++ r.events }

namespace Script

/-- A fault is shown where it cuts the script off, behind all that stands before it, if
enough outcomes are read. -/
theorem take_eq_faulted_iff {s : Script} {limit : Nat} {events : List Event}
    {outcomes : List Outcome} {fault : Fault} :
    s.take limit = some ⟨events, outcomes, .faulted fault⟩ ↔
      s.EndsIn fault ∧ s.events = events ∧ s.outcomes = outcomes ∧ outcomes.length < limit := by
  unfold take
  cases limit with
  | zero =>
    rw [read_none]
    simp
  | succ limit =>
    induction s generalizing limit events outcomes with
    | done | unread => simp [read, EndsIn]
    | raised fault' =>
      simp only [read, EndsIn, Script.events, Script.outcomes, Option.some.injEq, Shown.mk.injEq,
        Stream.Stop.faulted.injEq]
      constructor
      · rintro ⟨rfl, rfl, rfl⟩
        exact ⟨rfl, rfl, rfl, Nat.succ_pos limit⟩
      · rintro ⟨rfl, rfl, rfl, _⟩
        exact ⟨rfl, rfl, rfl⟩
    | event e rest ih =>
      rw [read, Option.map_eq_some_iff]
      constructor
      · rintro ⟨⟨events', outcomes', stop⟩, hread, hshown⟩
        cases hshown
        obtain ⟨hends, rfl, houtcomes, hlength⟩ := (ih limit).mp hread
        exact ⟨hends, rfl, houtcomes, hlength⟩
      · rintro ⟨hends, rfl, houtcomes, hlength⟩
        exact ⟨_, (ih limit).mpr ⟨hends, rfl, houtcomes, hlength⟩, rfl⟩
    | outcome o rest ih =>
      rw [read, if_neg Bool.false_ne_true, Option.map_eq_some_iff]
      constructor
      · rintro ⟨⟨events', outcomes', stop⟩, hread, hshown⟩
        cases hshown
        cases limit with
        | zero =>
          rw [read_none] at hread
          cases hread
        | succ limit =>
          obtain ⟨hends, hevents, rfl, hlength⟩ := (ih limit).mp hread
          exact ⟨hends, hevents, rfl, Nat.succ_lt_succ hlength⟩
      · rintro ⟨hends, hevents, rfl, hlength⟩
        cases limit with
        | zero => exact absurd (Nat.lt_of_succ_lt_succ hlength) (Nat.not_lt_zero _)
        | succ limit =>
          exact ⟨_, (ih limit).mpr ⟨hends, hevents, rfl, Nat.lt_of_succ_lt_succ hlength⟩, rfl⟩

end Script

namespace Parser

/-! ## Runs -/

/-- The step call of the parser at an offset, and then pulls for no more outcomes than
the limit, show the events, the outcomes and why the reading stopped. A step call that
meets a fault is the whole run. -/
inductive Shows (rules : Rules) (text : Text) (p : Parser) (i : Int) (limit : Nat) : Shown → Prop where
  | refused {fuel : Nat} {called : List Event} {fault : Fault}
    (hs : p.start rules text fuel i = some ⟨called, .error fault⟩) :
    Shows rules text p i limit ⟨called, [], .faulted fault⟩
  | running {fuel : Nat} {called : List Event} {s : Stream} {r : Stream.Reading}
    (hs : p.start rules text fuel i = some ⟨called, .ok s⟩)
    (hr : s.take rules text fuel limit = some r) :
    Shows rules text p i limit (r.shown.after called)

/-- Read from an offset to its end, the parser meets no fault, records the events and
gives the outcomes. -/
def Exhausts (rules : Rules) (text : Text) (p : Parser) (i : Int) (events : List Event)
    (outcomes : List Outcome) : Prop :=
  ∃ limit, p.Shows rules text i limit ⟨events, outcomes, .exhausted⟩

/-- Read from an offset far enough, the parser meets the fault. -/
def Meets (rules : Rules) (text : Text) (p : Parser) (i : Int) (fault : Fault) : Prop :=
  ∃ limit events outcomes, p.Shows rules text i limit ⟨events, outcomes, .faulted fault⟩

variable {rules : Rules} {text : Text} {p : Parser} {i : Int} {limit : Nat} {shown : Shown}

/-! ## Runs and scripts -/

/-- A step call that meets a fault is the whole script. -/
theorem script_of_refused {fuel : Nat} {called : List Event} {fault : Fault}
    (hs : p.start rules text fuel i = some ⟨called, .error fault⟩) :
    ∃ n, p.script rules text n i = .withEvents called (.raised fault) := by
  obtain ⟨n, hn⟩ := script_of_start hs 0
  have hwhole : (Script.withEvents called (.raised fault)).Whole :=
    Script.whole_withEvents _ _ |>.mpr trivial
  exact ⟨n, (hwhole.eq_of_le hn).symm⟩

/-- A run shows what stands in the script of its parser. -/
theorem Shows.mem_script (h : p.Shows rules text i limit shown) {o : Outcome}
    (ho : o ∈ shown.outcomes) : ∃ n, o ∈ (p.script rules text n i).outcomes := by
  cases h with
  | refused => cases ho
  | running hs hr =>
    obtain ⟨n, rest, hle, htake⟩ := script_of_run hs hr
    refine ⟨n, (Script.outcomes_prefix_of_le hle).mem ?_⟩
    rw [Script.outcomes_withEvents]
    exact (Script.outcomes_prefix_of_take htake).mem ho

/-- A fault of a run is the one that cuts the script of its parser off. -/
theorem Shows.endsIn_script (h : p.Shows rules text i limit shown) {fault : Fault}
    (hstop : shown.stop = .faulted fault) : ∃ n, (p.script rules text n i).EndsIn fault := by
  cases h with
  | refused hs =>
    obtain ⟨n, hn⟩ := script_of_refused hs
    cases hstop
    refine ⟨n, ?_⟩
    rw [hn, Script.endsIn_withEvents]
    rfl
  | running hs hr =>
    obtain ⟨n, rest, hle, htake⟩ := script_of_run hs hr
    refine ⟨n, Script.EndsIn.of_le ?_ hle⟩
    rw [Script.endsIn_withEvents]
    exact Script.endsIn_of_read htake hstop

/-- What a run with at least one pull shows can be read off the script. -/
theorem Shows.take_script (h : p.Shows rules text i (limit + 1) shown) :
    ∃ n, (p.script rules text n i).take (limit + 1) = some shown := by
  cases h with
  | @refused _ called fault hs =>
    obtain ⟨n, hn⟩ := script_of_refused hs
    refine ⟨n, ?_⟩
    rw [hn, Script.take, Script.read_withEvents]
    simp [Script.read]
  | running hs hr =>
    obtain ⟨n, rest, hle, htake⟩ := script_of_run hs hr
    refine ⟨n, Script.read_of_le hle ?_⟩
    rw [Script.take] at htake
    rw [Script.read_withEvents, htake]
    rfl

/-- What a run shows that gave an outcome or came to its end can be read off the
script. -/
theorem Shows.exists_take_script (h : p.Shows rules text i limit shown)
    (hsome : shown.stop ≠ .satisfied ∨ shown.outcomes ≠ []) :
    ∃ n k, (p.script rules text n i).take (k + 1) = some shown := by
  have hpos : ∃ k, p.Shows rules text i (k + 1) shown := by
    cases h with
    | refused hs => exact ⟨0, .refused hs⟩
    | running hs hr =>
      cases limit with
      | zero =>
        cases hr
        rcases hsome with hstop | houtcomes
        · exact (hstop rfl).elim
        · exact (houtcomes rfl).elim
      | succ k => exact ⟨k, .running hs hr⟩
  obtain ⟨k, hk⟩ := hpos
  obtain ⟨n, hn⟩ := hk.take_script
  exact ⟨n, k, hn⟩

/-- What can be read off the script is shown by a run with as many pulls. -/
theorem shows_of_take_script {n : Nat}
    (h : (p.script rules text n i).take (limit + 1) = some shown) :
    p.Shows rules text i (limit + 1) shown := by
  rw [Script.take] at h
  rcases runs_of_script rules text n p i with
    hu | ⟨called, fault, ⟨fuel, hs⟩, ht⟩ | ⟨called, s, rest, ⟨fuel, hs⟩, ht, hrest⟩
  · rw [hu] at h
    cases h
  · rw [ht, Script.read_withEvents] at h
    simp only [Script.read, Option.map_some, List.append_nil, Option.some.injEq] at h
    subst h
    exact .refused hs
  · rw [ht, Script.read_withEvents] at h
    obtain ⟨r, hr, rfl⟩ := Option.map_eq_some_iff.mp h
    obtain ⟨enough, he⟩ := take_of_shownBy hrest
    obtain ⟨r', hr', rfl⟩ := he (max fuel enough) (Nat.le_max_right fuel enough) _ r hr
    exact .running ((start_growing p i).of_le (Nat.le_max_left fuel enough) hs) hr'

/-- What can be read off the script is all that a run with as many pulls shows. -/
theorem shows_iff_of_take_script {n : Nat} {r : Shown}
    (h : (p.script rules text n i).take (limit + 1) = some r) :
    p.Shows rules text i (limit + 1) shown ↔ shown = r := by
  constructor
  · intro hshows
    obtain ⟨m, hm⟩ := hshows.take_script
    have hn' := Script.read_of_le (script_le (Nat.le_max_left n m) p i) h
    have hm' := Script.read_of_le (script_le (Nat.le_max_right n m) p i) hm
    exact Option.some.inj (hm'.symm.trans hn')
  · rintro rfl
    exact shows_of_take_script h

/-- A parser that can be read to its end has a script without a fault, with the same
contents, and only such a parser can. -/
theorem exhausts_iff_holds {events : List Event} {outcomes : List Outcome} :
    p.Exhausts rules text i events outcomes ↔
      ∃ n, (p.script rules text n i).Holds events outcomes := by
  constructor
  · rintro ⟨limit, h⟩
    have hstop : Stream.Stop.exhausted ≠ .satisfied := by
      intro h
      cases h
    obtain ⟨n, k, htake⟩ := h.exists_take_script (Or.inl hstop)
    exact ⟨n, Script.holds_of_take htake rfl⟩
  · rintro ⟨n, h⟩
    exact ⟨_, shows_of_take_script h.take⟩

/-- A leaf is read to its end by its one attempt, if that is no fault. -/
theorem exhausts_leaf_iff {l : Leaf} {o : Outcome} (h : l.attempt text i = .ok o) {events : List Event}
    {outcomes : List Outcome} :
    (leaf l).Exhausts rules text i events outcomes ↔ events = [] ∧ outcomes = [o] := by
  simp only [exhausts_iff_holds, script_leaf, h, Script.ofResult, exists_const]
  constructor
  · rintro ⟨_, rfl, rfl⟩
    exact ⟨rfl, rfl⟩
  · rintro ⟨rfl, rfl⟩
    exact ⟨trivial, rfl, rfl⟩

/-- A parser meets the faults that cut its script off. -/
theorem meets_iff_endsIn {fault : Fault} :
    p.Meets rules text i fault ↔ ∃ n, (p.script rules text n i).EndsIn fault := by
  constructor
  · rintro ⟨limit, events, outcomes, h⟩
    exact h.endsIn_script rfl
  · rintro ⟨n, h⟩
    have htake := Script.take_eq_faulted_iff.mpr ⟨h, rfl, rfl, Nat.lt_succ_self _⟩
    exact ⟨_, _, _, shows_of_take_script htake⟩

/-- Draining a parser is reading it to its end, whatever it records. -/
theorem drains_iff_exhausts {outcomes : List Outcome} :
    p.Drains rules text i outcomes ↔ ∃ events, p.Exhausts rules text i events outcomes := by
  constructor
  · intro h
    obtain ⟨n, hunbroken, houtcomes⟩ := h.script
    exact ⟨_, exhausts_iff_holds.mpr ⟨n, hunbroken, rfl, houtcomes⟩⟩
  · rintro ⟨events, h⟩
    obtain ⟨n, hholds⟩ := exhausts_iff_holds.mp h
    exact hholds.outcomes_eq ▸ drains_of_unbroken hholds.unbroken

end Parser

end Backtrack
