-- Scripts that are alike: two runs compared step by step. Each event, each outcome and
-- the fault at the end of the one stands in a given relation to that of the other, and
-- scripts made of parts that are alike are alike.
import Backtrack.Proofs.Script.Reading
import Mathlib.Data.List.Forall2

namespace Backtrack

/-! ## Comparing what two runs show -/

/-- How the events, the outcomes and the faults of two runs are compared. -/
structure Likeness where
  event : Event → Event → Prop
  outcome : Outcome → Outcome → Prop
  fault : Fault → Fault → Prop

namespace Likeness

/-- The same comparison with the two runs exchanged. -/
def flip (L : Likeness) : Likeness where
  event e e' := L.event e' e
  outcome o o' := L.outcome o' o
  fault f f' := L.fault f' f

/-- Both runs stopped for the same reason. -/
inductive Stops (L : Likeness) : Stream.Stop → Stream.Stop → Prop where
  | exhausted : Stops L .exhausted .exhausted
  | satisfied : Stops L .satisfied .satisfied
  | faulted {f f' : Fault} : L.fault f f' → Stops L (.faulted f) (.faulted f')

/-- Both computations answered, or both met a fault. -/
inductive Results (L : Likeness) : Except Fault Outcome → Except Fault Outcome → Prop where
  | ok {o o' : Outcome} : L.outcome o o' → Results L (.ok o) (.ok o')
  | error {f f' : Fault} : L.fault f f' → Results L (.error f) (.error f')

/-- Both computations record the same and come to the same. -/
structure Actions (L : Likeness) (x x' : Action Outcome) : Prop where
  events : List.Forall₂ L.event x.events x'.events
  result : L.Results x.result x'.result

/-- What is shown of the one run and of the other. -/
structure Runs (L : Likeness) (r r' : Shown) : Prop where
  events : List.Forall₂ L.event r.events r'.events
  outcomes : List.Forall₂ L.outcome r.outcomes r'.outcomes
  stop : L.Stops r.stop r'.stop

variable {L : Likeness}

theorem Stops.flip {stop stop' : Stream.Stop} (h : L.flip.Stops stop' stop) : L.Stops stop stop' := by
  cases h with
  | exhausted => exact .exhausted
  | satisfied => exact .satisfied
  | faulted h => exact .faulted h

theorem Runs.flip {r r' : Shown} (h : L.flip.Runs r' r) : L.Runs r r' :=
  ⟨h.events.flip, h.outcomes.flip, h.stop.flip⟩

end Likeness

namespace Script

/-- The scripts go on together, step by step. -/
inductive Alike (L : Likeness) : Script → Script → Prop where
  | done : Alike L done done
  | raised {f f' : Fault} : L.fault f f' → Alike L (raised f) (raised f')
  | unread : Alike L unread unread
  | event {e e' : Event} {s s' : Script} :
    L.event e e' → Alike L s s' → Alike L (event e s) (event e' s')
  | outcome {o o' : Outcome} {s s' : Script} :
    L.outcome o o' → Alike L s s' → Alike L (outcome o s) (outcome o' s')

namespace Alike

variable {L : Likeness} {s s' t t' : Script}

theorem flip (h : Alike L s s') : Alike L.flip s' s := by
  induction h with
  | done => exact .done
  | raised h => exact .raised h
  | unread => exact .unread
  | event he _ ih => exact .event he ih
  | outcome ho _ ih => exact .outcome ho ih

theorem single {o o' : Outcome} (h : L.outcome o o') : Alike L (single o) (single o') :=
  .outcome h .done

theorem ofResult {x x' : Except Fault Outcome} (h : L.Results x x') :
    Alike L (ofResult x) (ofResult x') := by
  cases h with
  | ok h => exact .single h
  | error h => exact .raised h

theorem withEvents {events events' : List Event} (he : List.Forall₂ L.event events events')
    (h : Alike L s s') : Alike L (withEvents events s) (withEvents events' s') := by
  induction he with
  | nil => exact h
  | cons he _ ih => exact .event he ih

theorem append (hs : Alike L s s') (ht : Alike L t t') : Alike L (s.append t) (s'.append t') := by
  induction hs with
  | done => exact ht
  | raised h => exact .raised h
  | unread => exact .unread
  | event he _ ih => exact .event he ih
  | outcome ho _ ih => exact .outcome ho ih

theorem expand {f f' : Outcome → Script} (hs : Alike L s s')
    (hf : ∀ o ∈ s.outcomes, ∀ o', L.outcome o o' → Alike L (f o) (f' o')) :
    Alike L (s.expand f) (s'.expand f') := by
  induction hs with
  | done => exact .done
  | raised h => exact .raised h
  | unread => exact .unread
  | event he _ ih => exact .event he (ih hf)
  | outcome ho _ ih =>
    have hrest := ih fun o hmem => hf o (List.mem_cons_of_mem _ hmem)
    exact (hf _ List.mem_cons_self _ ho).append hrest

/-- The same script with other scripts in place of its outcomes. -/
theorem expand_same (hevent : ∀ e, L.event e e) (hfault : ∀ f, L.fault f f) {s : Script}
    {f f' : Outcome → Script} (hf : ∀ o ∈ s.outcomes, Alike L (f o) (f' o)) :
    Alike L (s.expand f) (s.expand f') := by
  induction s with
  | done => exact .done
  | raised fault => exact .raised (hfault fault)
  | unread => exact .unread
  | event e rest ih => exact .event (hevent e) (ih hf)
  | outcome o rest ih =>
    have hrest := ih fun o' ho' => hf o' (List.mem_cons_of_mem o ho')
    exact (hf o List.mem_cons_self).append hrest

theorem change {f f' : Outcome → Action Outcome} (hs : Alike L s s')
    (hf : ∀ o ∈ s.outcomes, ∀ o', L.outcome o o' → L.Actions (f o) (f' o')) :
    Alike L (s.change f) (s'.change f') := by
  refine hs.expand fun o hmem o' ho => ?_
  have h := hf o hmem o' ho
  exact .withEvents h.events (.ofResult h.result)

/-- Scripts that are alike show what is alike, however far they are read. -/
theorem take (h : Alike L s s') {n : Nat} {r : Shown} (hr : s.take n = some r) :
    ∃ r', s'.take n = some r' ∧ L.Runs r r' := by
  unfold Script.take at hr ⊢
  induction h generalizing n r with
  | done =>
    cases n <;> cases hr
    · exact ⟨_, rfl, .nil, .nil, .satisfied⟩
    · exact ⟨_, rfl, .nil, .nil, .exhausted⟩
  | raised h =>
    cases n <;> cases hr
    · exact ⟨_, rfl, .nil, .nil, .satisfied⟩
    · exact ⟨_, rfl, .nil, .nil, .faulted h⟩
  | unread =>
    cases n <;> cases hr
    exact ⟨_, rfl, .nil, .nil, .satisfied⟩
  | @event e e' s s' he _ ih =>
    cases n with
    | zero =>
      cases hr
      exact ⟨_, rfl, .nil, .nil, .satisfied⟩
    | succ n =>
      obtain ⟨q, hq, rfl⟩ := Option.map_eq_some_iff.mp hr
      obtain ⟨q', hq', hqq'⟩ := ih hq
      refine ⟨{ q' with events := e' :: q'.events }, ?_, .cons he hqq'.events, hqq'.outcomes, hqq'.stop⟩
      rw [read, hq']
      rfl
  | @outcome o o' s s' ho _ ih =>
    cases n with
    | zero =>
      cases hr
      exact ⟨_, rfl, .nil, .nil, .satisfied⟩
    | succ n =>
      obtain ⟨q, hq, rfl⟩ := Option.map_eq_some_iff.mp hr
      obtain ⟨q', hq', hqq'⟩ := ih hq
      refine ⟨{ q' with outcomes := o' :: q'.outcomes }, ?_, hqq'.events, .cons ho hqq'.outcomes, hqq'.stop⟩
      rw [read, hq']
      rfl

end Alike

end Script

end Backtrack
