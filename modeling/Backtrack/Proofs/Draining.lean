-- The laws of draining: what each form of parser gives if it is read to its end, from
-- what its parts give if they are. A sequence reads its second part again at the end of
-- each success of the first, so what it gives is put together success by success.
import Backtrack.Proofs.Ends
import Backtrack.Proofs.Sequence
import Backtrack.Proofs.Chains

namespace Backtrack

namespace Outcome

/-- What becomes of an outcome if a second parser goes on behind it. -/
def through (second : Int → List Outcome) : Outcome → List Outcome
  | failure index expect => [failure index expect]
  | success index value => (second index).map (·.pairedWith value)

/-- The outcome with the first value of a pair only. -/
def firstOnly : Outcome → Outcome
  | success index value => success index value.first
  | failure index expect => failure index expect

/-- The outcome, taken back to an offset if it is a success. -/
def takenBack (start : Int) : Outcome → Outcome
  | success _ value => success start value
  | failure index expect => failure index expect

/-- What is given at an offset of something absent, from what the thing itself gives. -/
def absent (text : Text) (start : Int) (outcomes : List Outcome) : Outcome :=
  match successes outcomes with
  | [] => success start .none
  | o :: _ => Parser.presence text start o.index

end Outcome

namespace Script

variable {s : Script}

theorem outcomes_goOn (second : Int → Script) (o : Outcome) :
    (goOn second o).outcomes = o.through fun j => (second j).outcomes := by
  cases o with
  | failure index expect => rfl
  | success index value => exact outcomes_expand_single

/-- Only the first success of a script tells what its absence gives. -/
theorem outcomes_negate (text : Text) (i : Int) (hs : s.Unbroken) :
    (s.negate text i).Unbroken ∧ (s.negate text i).outcomes = [.absent text i s.outcomes] := by
  unfold negate
  induction s with
  | done => exact ⟨trivial, rfl⟩
  | raised | unread => exact hs.elim
  | event e rest ih => exact ih hs
  | outcome o rest ih =>
    cases o with
    | success index value => exact ⟨trivial, rfl⟩
    | failure index expect => exact ih hs

end Script

namespace Parser

variable {rules : Rules} {text : Text} {p q : Parser} {i : Int} {n : Nat}
  {outcomes outcomes' : List Outcome} {second : Int → List Outcome}

theorem drains_iff_script : p.Drains rules text i outcomes ↔
    ∃ n, (p.script rules text n i).Unbroken ∧ (p.script rules text n i).outcomes = outcomes := by
  constructor
  · exact Drains.script
  · rintro ⟨n, hn, rfl⟩
    exact drains_of_unbroken hn

theorem Drains.ends (h : p.Drains rules text i outcomes) : p.Ends rules text i := by
  obtain ⟨n, hn, _⟩ := h.script
  exact ⟨n, hn.whole⟩

/-- A parser that is drained has its outcomes in every script that is known to its end. -/
theorem Drains.of_whole (h : p.Drains rules text i outcomes)
    (hwhole : (p.script rules text n i).Whole) :
    (p.script rules text n i).Unbroken ∧ (p.script rules text n i).outcomes = outcomes := by
  obtain ⟨m, hm, rfl⟩ := h.script
  have hn := hwhole.eq_of_le (script_le (Nat.le_max_left n m) p i)
  have hsame := hm.whole.eq_of_le (script_le (Nat.le_max_right n m) p i)
  rw [hn, ← hsame]
  exact ⟨hm, rfl⟩

/-! ## The forms of parsers -/

theorem Drains.or (hp : p.Drains rules text i outcomes) (hq : q.Drains rules text i outcomes') :
    (p.or q).Drains rules text i (outcomes ++ outcomes') := by
  obtain ⟨n, hn⟩ := hp.ends
  obtain ⟨m, hm⟩ := hq.ends
  obtain ⟨hfirst, rfl⟩ := hp.of_whole (hn.of_le (script_le (Nat.le_max_left n m) p i))
  obtain ⟨hlater, rfl⟩ := hq.of_whole (hm.of_le (script_le (Nat.le_max_right n m) q i))
  refine drains_iff_script.mpr ⟨max n m, ?_, ?_⟩
  · rw [script_or]
    exact Script.unbroken_append.mpr ⟨hfirst, hlater⟩
  · rw [script_or]
    exact Script.outcomes_append hfirst

/-- A sequence gives what its second part gives at the end of each success of the first,
and the failures of the first in their places. -/
theorem Drains.pair (hp : p.Drains rules text i outcomes)
    (hq : ∀ j v, .success j v ∈ outcomes → q.Drains rules text j (second j)) :
    (p.pair q).Drains rules text i (outcomes.flatMap (Outcome.through second)) := by
  obtain ⟨n, hn, rfl⟩ := hp.script
  obtain ⟨m, hm⟩ := exists_common_limit _ fun j v hv => (hq j v hv).ends
  -- The script of the first part stays as it is with the limit that the second part needs.
  have hsame := hn.whole.eq_of_le (script_le (Nat.le_max_left n m) p i)
  have hsecond : ∀ j v, .success j v ∈ (p.script rules text n i).outcomes →
      (q.script rules text (max n m) j).Unbroken ∧
        (q.script rules text (max n m) j).outcomes = second j := fun j v hv =>
    (hq j v hv).of_whole ((hm j v hv).of_le (script_le (Nat.le_max_right n m) q j))
  have hscript : (p.pair q).script rules text (max n m) i =
      (p.script rules text n i).expand (Script.goOn (q.script rules text (max n m))) := by
    rw [script_pair, ← hsame, Script.pairWith_eq_expand]
  have hunbroken : ((p.pair q).script rules text (max n m) i).Unbroken := by
    rw [hscript, Script.unbroken_expand]
    refine ⟨hn, fun o ho => ?_⟩
    cases o with
    | failure index expect => trivial
    | success j v => exact Script.unbroken_expand_single.mpr (hsecond j v ho).1
  refine drains_iff_script.mpr ⟨_, hunbroken, ?_⟩
  rw [hscript] at hunbroken ⊢
  rw [Script.outcomes_expand hunbroken]
  refine List.flatMap_congr fun o ho => ?_
  rw [Script.outcomes_goOn]
  cases o with
  | failure index expect => rfl
  | success j v => rw [Outcome.through, Outcome.through, (hsecond j v ho).2]

/-- A function of outcomes that always answers is used on each of them. -/
theorem Drains.mapOutcome {change : Outcome → Int → Action Outcome} {g : Outcome → Outcome}
    (hp : p.Drains rules text i outcomes) (hg : ∀ o, change o i = pure (g o)) :
    (p.mapOutcome change).Drains rules text i (outcomes.map g) := by
  obtain ⟨n, hn, rfl⟩ := hp.script
  have hscript : (p.mapOutcome change).script rules text n i =
      (p.script rules text n i).expand fun o => .single (g o) := by
    rw [script_mapOutcome, Script.change]
    exact Script.expand_congr fun o _ => by rw [hg]; rfl
  refine drains_iff_script.mpr ⟨n, ?_, ?_⟩
  · rw [hscript]
    exact Script.unbroken_expand_single.mpr hn
  · rw [hscript]
    exact Script.outcomes_expand_single

theorem Drains.peek (hp : p.Drains rules text i outcomes) :
    p.peek.Drains rules text i (outcomes.map (Outcome.takenBack i)) :=
  hp.mapOutcome fun o => by cases o <;> rfl

theorem Drains.not (hp : p.Drains rules text i outcomes) :
    p.not.Drains rules text i [.absent text i outcomes] := by
  obtain ⟨n, hn, rfl⟩ := hp.script
  obtain ⟨hunbroken, houtcomes⟩ := Script.outcomes_negate text i hn
  rw [← script_not] at hunbroken houtcomes
  exact drains_iff_script.mpr ⟨n, hunbroken, houtcomes⟩

theorem Drains.keepFirst (hp : p.Drains rules text i outcomes)
    (hq : ∀ j v, .success j v ∈ outcomes → q.Drains rules text j (second j)) :
    (p.keepFirst q).Drains rules text i
      (outcomes.flatMap fun o => (o.through second).map Outcome.firstOnly) := by
  rw [← List.map_flatMap]
  exact (hp.pair hq).mapOutcome fun o => by cases o <;> rfl

end Parser

end Backtrack
