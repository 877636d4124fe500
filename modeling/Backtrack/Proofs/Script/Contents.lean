-- The contents of a script: its events beside its outcomes. Where outcomes are replaced
-- by whole scripts, the events of all of them mix, and what is kept is how often each of
-- them is recorded. Where they are replaced one for one, everything stays in its place.
import Backtrack.Proofs.Script.Approximation
import Mathlib.Data.List.Basic

namespace Backtrack

namespace Script

variable {s t : Script}

/-- The events of a script in their order. -/
def events : Script → List Event
  | done | raised _ | unread => []
  | event e rest => e :: rest.events
  | outcome _ rest => rest.events

/-- The script is known to its end, which is no fault, and these are its events and its
outcomes. -/
structure Holds (s : Script) (events : List Event) (outcomes : List Outcome) : Prop where
  unbroken : s.Unbroken
  events_eq : s.events = events
  outcomes_eq : s.outcomes = outcomes

theorem Unbroken.holds (h : s.Unbroken) : s.Holds s.events s.outcomes := ⟨h, rfl, rfl⟩

theorem Holds.of_le {events : List Event} {outcomes : List Outcome} (hs : s.Holds events outcomes)
    (h : s ≤ t) : t.Holds events outcomes := hs.unbroken.whole.eq_of_le h ▸ hs

/-! ## Reading to the end -/

/-- A script without a fault shows its contents if it is asked for one outcome more than
it has. -/
theorem Holds.take {events : List Event} {outcomes : List Outcome} (h : s.Holds events outcomes) :
    s.take (outcomes.length + 1) = some ⟨events, outcomes, .exhausted⟩ := by
  obtain ⟨hs, rfl, rfl⟩ := h
  unfold Script.take
  induction s with
  | done => rfl
  | raised | unread => exact hs.elim
  | event e rest ih =>
    rw [outcomes, read, ih hs]
    rfl
  | outcome o rest ih =>
    have hrest := ih hs
    rw [outcomes, List.length_cons, read, hrest]
    rfl

/-- A script that was read to its end has shown its contents. -/
theorem holds_of_take {n : Nat} {r : Shown} (h : s.take n = some r) (hstop : r.stop = .exhausted) :
    s.Holds r.events r.outcomes := by
  unfold Script.take at h
  induction s generalizing n r with
  | done => cases n <;> cases h <;> exact ⟨trivial, rfl, rfl⟩
  | raised | unread => cases n <;> cases h <;> cases hstop
  | event e rest ih =>
    cases n with
    | zero => cases h; cases hstop
    | succ n =>
      obtain ⟨r', hr', rfl⟩ := Option.map_eq_some_iff.mp h
      have hrest := ih hr' hstop
      exact ⟨hrest.unbroken, congrArg (e :: ·) hrest.events_eq, hrest.outcomes_eq⟩
  | outcome o rest ih =>
    cases n with
    | zero => cases h; cases hstop
    | succ n =>
      obtain ⟨r', hr', rfl⟩ := Option.map_eq_some_iff.mp h
      have hrest := ih hr' hstop
      exact ⟨hrest.unbroken, hrest.events_eq, congrArg (o :: ·) hrest.outcomes_eq⟩

/-! ## Events of scripts put together -/

theorem events_append (hs : s.Unbroken) : (s.append t).events = s.events ++ t.events := by
  induction s with
  | done => rfl
  | raised | unread => exact hs.elim
  | event e rest ih => exact congrArg (e :: ·) (ih hs)
  | outcome o rest ih => exact ih hs

/-- One more outcome at the end is one more outcome in the contents. -/
theorem holds_append_single {o : Outcome} {events : List Event} {outcomes : List Outcome} :
    (s.append (single o)).Holds events outcomes ↔
      ∃ first, s.Holds events first ∧ outcomes = first ++ [o] := by
  constructor
  · rintro ⟨hunbroken, rfl, rfl⟩
    have hs := (unbroken_append.mp hunbroken).1
    refine ⟨s.outcomes, ⟨hs, ?_, rfl⟩, outcomes_append hs⟩
    exact ((events_append hs).trans (List.append_nil _)).symm
  · rintro ⟨first, ⟨hs, rfl, rfl⟩, rfl⟩
    refine ⟨unbroken_append.mpr ⟨hs, trivial⟩, ?_, outcomes_append hs⟩
    exact (events_append hs).trans (List.append_nil _)

/-- Every outcome adds the events of the script that takes its place. -/
theorem events_expand {f : Outcome → Script} (h : (s.expand f).Unbroken) :
    (s.expand f).events.Perm (s.events ++ s.outcomes.flatMap fun o => (f o).events) := by
  induction s with
  | done => exact List.Perm.refl _
  | raised | unread => exact h.elim
  | event e rest ih => exact (ih h).cons e
  | outcome o rest ih =>
    obtain ⟨ho, hrest⟩ := unbroken_append.mp h
    rw [expand, events_append ho, events, outcomes, List.flatMap_cons]
    -- The events of the later outcomes stand behind those of this one, which were
    -- all recorded before the script went on.
    have hlater := (ih hrest).append_left (f o).events
    exact hlater.trans (List.perm_append_comm_assoc _ _ _)

/-- Only what takes the place of its own outcomes matters to a script. -/
theorem expand_congr {f f' : Outcome → Script} (h : ∀ o ∈ s.outcomes, f o = f' o) :
    s.expand f = s.expand f' := by
  induction s with
  | done | raised | unread => rfl
  | event e rest ih => exact congrArg (Script.event e) (ih h)
  | outcome o rest ih =>
    have hrest := ih fun o' ho' => h o' (List.mem_cons_of_mem o ho')
    rw [expand, expand, h o List.mem_cons_self, hrest]

/-! ## One outcome in place of another -/

variable {g : Outcome → Outcome}

theorem unbroken_expand_single : (s.expand fun o => single (g o)).Unbroken ↔ s.Unbroken := by
  rw [unbroken_expand]
  exact and_iff_left fun o _ => trivial

theorem outcomes_expand_single :
    (s.expand fun o => single (g o)).outcomes = s.outcomes.map g := by
  induction s with
  | done | raised | unread => rfl
  | event e rest ih => exact ih
  | outcome o rest ih => exact congrArg (g o :: ·) ih

theorem events_expand_single : (s.expand fun o => single (g o)).events = s.events := by
  induction s with
  | done | raised | unread => rfl
  | event e rest ih => exact congrArg (e :: ·) ih
  | outcome o rest ih => exact ih

theorem Holds.expand_single {events : List Event} {outcomes : List Outcome}
    (h : s.Holds events outcomes) :
    (s.expand fun o => single (g o)).Holds events (outcomes.map g) := by
  obtain ⟨hs, rfl, rfl⟩ := h
  exact ⟨unbroken_expand_single.mpr hs, events_expand_single, outcomes_expand_single⟩

/-- A script whose outcomes are replaced one for one reads as before, with the outcomes
replaced. -/
theorem read_expand_single {wanted wanted' : Outcome → Bool}
    (hg : ∀ o, wanted (g o) = wanted' o) (s : Script) (n : Nat) :
    (s.expand fun o => single (g o)).read wanted n =
      (s.read wanted' n).map fun r => { r with outcomes := r.outcomes.map g } := by
  induction s generalizing n with
  | done | raised | unread => cases n <;> rfl
  | event e rest ih =>
    cases n with
    | zero => rfl
    | succ n =>
      simp only [expand, read, ih, Option.map_map]
      rfl
  | outcome o rest ih =>
    cases n with
    | zero => rfl
    | succ n =>
      have hnext : (outcome o rest).expand (fun o => single (g o)) =
          outcome (g o) (rest.expand fun o => single (g o)) := rfl
      rw [hnext, read, read, hg, ih]
      by_cases hw : wanted' o
      · simp [hw]
      · simp only [if_neg hw, Option.map_map]
        rfl

end Script

end Backtrack
