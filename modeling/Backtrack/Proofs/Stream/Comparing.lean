-- Parsers compared by their runs: scripts that are alike are shown by runs that are
-- alike, for every number of pulls. What a run shows is the sum of its step call and its
-- pulls, so parsers that agree for every number of pulls agree pull by pull.
import Backtrack.Proofs.Script.Likeness
import Backtrack.Proofs.Stream.Showing

namespace Backtrack

namespace Parser

variable {rules : Rules} {text : Text} {p q : Parser} {i : Int} {limit : Nat} {shown : Shown}

/-! ## Step calls -/

/-- The step call of the parser does nothing but wait to be asked. -/
def Waits : Parser → Prop
  | custom _ | ref _ => False
  | _ => True

theorem start_of_waits (h : p.Waits) (n : Nat) :
    p.start rules text (n + 1) i = some ⟨[], .ok (.waiting p i)⟩ := by
  cases p with
  | custom step => exact h.elim
  | ref handle => exact h.elim
  | _ => rfl

/-- Before it is asked, a parser that waits shows nothing. -/
theorem shows_none_of_waits (h : p.Waits) :
    p.Shows rules text i 0 shown ↔ shown = ⟨[], [], .satisfied⟩ := by
  constructor
  · intro hshows
    cases hshows with
    | @refused fuel _ _ hs =>
      cases fuel with
      | zero => cases hs
      | succ fuel =>
        rw [start_of_waits h] at hs
        cases hs
    | @running fuel _ _ _ hs hr =>
      cases fuel with
      | zero => cases hs
      | succ fuel =>
        rw [start_of_waits h] at hs
        cases hs
        cases hr
        rfl
  · intro hshown
    subst hshown
    exact .running (start_of_waits h 0) (r := ⟨[], [], .satisfied, .waiting p i⟩) rfl

/-! ## Runs of two parsers -/

/-- A run with at least one pull shows what can be read of the script, and no more. -/
theorem shows_iff_take_script : p.Shows rules text i (limit + 1) shown ↔
    ∃ n, (p.script rules text n i).take (limit + 1) = some shown := by
  constructor
  · intro h
    exact h.take_script
  · rintro ⟨n, hn⟩
    exact shows_of_take_script hn

/-- A parser that waits shows what can be read of its script, also before it is asked. -/
theorem shows_iff_take_script_of_waits (h : p.Waits) : p.Shows rules text i limit shown ↔
    ∃ n, (p.script rules text n i).take limit = some shown := by
  cases limit with
  | zero =>
    simp only [shows_none_of_waits h, Script.take, Script.read_none, Option.some.injEq, exists_const]
    exact eq_comm
  | succ limit => exact shows_iff_take_script

/-- In as many pulls, each of the two parsers shows what is alike to what the other one
shows. -/
structure RunsAlike (L : Likeness) (rules : Rules) (text : Text) (p q : Parser) (i : Int)
    (limit : Nat) : Prop where
  there : ∀ shown, p.Shows rules text i limit shown →
    ∃ shown', q.Shows rules text i limit shown' ∧ L.Runs shown shown'
  back : ∀ shown', q.Shows rules text i limit shown' →
    ∃ shown, p.Shows rules text i limit shown ∧ L.Runs shown shown'

/-- From every start and for every number of pulls, also none, the two parsers show the
same events and outcomes and end in the same way. -/
def Indistinguishable (rules : Rules) (text : Text) (p q : Parser) : Prop :=
  ∀ i limit shown, p.Shows rules text i limit shown ↔ q.Shows rules text i limit shown

/-- The second parser is the first with its step call put off to the first pull: it does
nothing until it is asked, and from then on it shows the same. -/
structure PutOff (rules : Rules) (text : Text) (p q : Parser) : Prop where
  waits : ∀ i shown, q.Shows rules text i 0 shown ↔ shown = ⟨[], [], .satisfied⟩
  same : ∀ i limit shown,
    q.Shows rules text i (limit + 1) shown ↔ p.Shows rules text i (limit + 1) shown

/-! ## From scripts to runs -/

theorem runsAlike_of_alike {L : Likeness} (hp : p.Waits) (hq : q.Waits)
    (h : ∀ n, Script.Alike L (p.script rules text n i) (q.script rules text n i)) :
    RunsAlike L rules text p q i limit := by
  cases limit with
  | zero =>
    constructor
    · intro shown hshown
      rw [shows_none_of_waits hp] at hshown
      subst hshown
      exact ⟨_, shows_none_of_waits hq |>.mpr rfl, .nil, .nil, .satisfied⟩
    · intro shown hshown
      rw [shows_none_of_waits hq] at hshown
      subst hshown
      exact ⟨_, shows_none_of_waits hp |>.mpr rfl, .nil, .nil, .satisfied⟩
  | succ limit =>
    constructor
    · intro shown hshown
      obtain ⟨n, hn⟩ := hshown.take_script
      obtain ⟨shown', hn', hruns⟩ := (h n).take hn
      exact ⟨shown', shows_of_take_script hn', hruns⟩
    · intro shown' hshown
      obtain ⟨n, hn⟩ := hshown.take_script
      obtain ⟨shown, hn', hruns⟩ := (h n).flip.take hn
      exact ⟨shown, shows_of_take_script hn', hruns.flip⟩

theorem shows_iff_of_script_eq
    (h : ∀ n, p.script rules text n i = q.script rules text n i) :
    p.Shows rules text i (limit + 1) shown ↔ q.Shows rules text i (limit + 1) shown := by
  simp only [shows_iff_take_script, h]

theorem indistinguishable_of_script_eq (hp : p.Waits) (hq : q.Waits)
    (h : ∀ n i, p.script rules text n i = q.script rules text n i) :
    Indistinguishable rules text p q := by
  intro i limit shown
  cases limit with
  | zero => rw [shows_none_of_waits hp, shows_none_of_waits hq]
  | succ limit => exact shows_iff_of_script_eq fun n => h n i

theorem putOff_of_script_eq (hq : q.Waits)
    (h : ∀ n i, q.script rules text n i = p.script rules text n i) : PutOff rules text p q :=
  ⟨fun _ _ => shows_none_of_waits hq, fun i _ _ => shows_iff_of_script_eq fun n => h n i⟩

end Parser

end Backtrack
