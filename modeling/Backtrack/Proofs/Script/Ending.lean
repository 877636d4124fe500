-- How a script ends: the fault that cuts it off, if there is one. A script that is
-- put together from others is cut off by a fault of one of them, or by a fault of a
-- function that it hands an outcome to.
import Backtrack.Proofs.Script.Approximation

namespace Backtrack

namespace Script

/-- The script is cut off by the fault. -/
def EndsIn (fault : Fault) : Script → Prop
  | raised fault' => fault' = fault
  | done | unread => False
  | event _ rest | outcome _ rest => rest.EndsIn fault

variable {s t : Script} {fault : Fault}

theorem endsIn_ofResult {x : Except Fault Outcome} :
    (ofResult x).EndsIn fault ↔ x = .error fault := by
  cases x <;> simp [ofResult, EndsIn]

theorem not_endsIn_single (o : Outcome) : ¬ (single o).EndsIn fault := id

@[simp] theorem endsIn_withEvents (events : List Event) (s : Script) :
    (withEvents events s).EndsIn fault ↔ s.EndsIn fault := by
  induction events with
  | nil => rfl
  | cons e events ih => exact ih

theorem EndsIn.not_unbroken (h : s.EndsIn fault) : ¬ s.Unbroken := by
  induction s with
  | done | unread => exact h.elim
  | raised => exact id
  | event e rest ih | outcome o rest ih => exact ih h

/-- A script that is known to its end comes to it or is cut off by a fault. -/
theorem whole_iff : s.Whole ↔ s.Unbroken ∨ ∃ fault, s.EndsIn fault := by
  induction s with
  | done => simp [Whole, Unbroken]
  | raised fault => simp [Whole, EndsIn]
  | unread => simp [Whole, Unbroken, EndsIn]
  | event e rest ih | outcome o rest ih => exact ih

/-- Where the fault is known, the script is known to its end. -/
theorem EndsIn.of_le (hs : s.EndsIn fault) (h : s ≤ t) : t.EndsIn fault := by
  induction h with
  | unread => exact hs.elim
  | done | raised => exact hs
  | event e _ ih | outcome o _ ih => exact ih hs

/-- A fault that reading has met cuts the script off. -/
theorem endsIn_of_read {wanted : Outcome → Bool} {n : Nat} {r : Shown}
    (h : s.read wanted n = some r) (hstop : r.stop = .faulted fault) : s.EndsIn fault := by
  induction s generalizing n r with
  | done => cases n <;> cases h <;> cases hstop
  | raised fault' => cases n <;> cases h <;> cases hstop; rfl
  | unread => cases n <;> cases h; cases hstop
  | event e rest ih =>
    cases n with
    | zero => cases h; cases hstop
    | succ n =>
      obtain ⟨r', hr', rfl⟩ := Option.map_eq_some_iff.mp h
      exact ih hr' hstop
  | outcome o rest ih =>
    cases n with
    | zero => cases h; cases hstop
    | succ n =>
      rw [read] at h
      by_cases hw : wanted o
      · rw [if_pos hw] at h
        cases h
        cases hstop
      · rw [if_neg hw] at h
        obtain ⟨r', hr', rfl⟩ := Option.map_eq_some_iff.mp h
        exact ih hr' hstop

/-! ## Scripts put together -/

theorem endsIn_append_iff :
    (s.append t).EndsIn fault ↔ s.EndsIn fault ∨ s.Unbroken ∧ t.EndsIn fault := by
  induction s with
  | done => simp [append, EndsIn, Unbroken]
  | raised | unread => simp [append, EndsIn, Unbroken]
  | event e rest ih | outcome o rest ih => exact ih

theorem endsIn_append (h : (s.append t).EndsIn fault) : s.EndsIn fault ∨ t.EndsIn fault :=
  (endsIn_append_iff.mp h).imp_right And.right

theorem endsIn_expand {f : Outcome → Script} (h : (s.expand f).EndsIn fault) :
    s.EndsIn fault ∨ ∃ o ∈ s.outcomes, (f o).EndsIn fault := by
  induction s with
  | done | unread => exact h.elim
  | raised => exact Or.inl h
  | event e rest ih => exact ih h
  | outcome o rest ih =>
    rcases endsIn_append h with h | h
    · exact Or.inr ⟨o, List.mem_cons_self, h⟩
    · rcases ih h with h | ⟨o', ho', h⟩
      · exact Or.inl h
      · exact Or.inr ⟨o', List.mem_cons_of_mem o ho', h⟩

/-- Outcomes replaced one for one leave the fault as it is. -/
theorem endsIn_expand_single {g : Outcome → Outcome} :
    (s.expand fun o => single (g o)).EndsIn fault ↔ s.EndsIn fault := by
  induction s with
  | done | raised | unread => rfl
  | event e rest ih | outcome o rest ih => exact ih

theorem endsIn_pairWith {second : Int → Script} (h : (s.pairWith second).EndsIn fault) :
    s.EndsIn fault ∨ ∃ j v, .success j v ∈ s.outcomes ∧ (second j).EndsIn fault := by
  rcases endsIn_expand h with h | ⟨o, ho, h⟩
  · exact Or.inl h
  · cases o with
    | failure index expect => exact (not_endsIn_single _ h).elim
    | success j v =>
      rcases endsIn_expand h with h | ⟨_, _, h⟩
      · exact Or.inr ⟨j, v, ho, h⟩
      · exact (not_endsIn_single _ h).elim

theorem endsIn_change {f : Outcome → Action Outcome} (h : (s.change f).EndsIn fault) :
    s.EndsIn fault ∨ ∃ o ∈ s.outcomes, (f o).result = .error fault := by
  rcases endsIn_expand h with h | ⟨o, ho, h⟩
  · exact Or.inl h
  · rw [endsIn_withEvents, endsIn_ofResult] at h
    exact Or.inr ⟨o, ho, h⟩

theorem endsIn_negate {text : Text} {start : Int} (h : (s.negate text start).EndsIn fault) :
    s.EndsIn fault := by
  unfold negate at h
  induction s with
  | done => exact (not_endsIn_single _ h).elim
  | raised => exact h
  | unread => exact h.elim
  | event e rest ih => exact ih h
  | outcome o rest ih =>
    cases o with
    | success index value => exact (not_endsIn_single _ h).elim
    | failure index expect => exact ih h

end Script

end Backtrack
