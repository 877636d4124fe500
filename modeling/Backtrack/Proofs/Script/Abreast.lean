-- Scripts that go on abreast: two runs compared outcome by outcome, each of which may
-- record events of its own between them. These events count for nothing, all others stand
-- in both runs in the same order. Scripts made of parts that go on abreast do so too.
import Backtrack.Proofs.Script.Reading
import Mathlib.Data.List.Forall2

namespace Backtrack

/-! ## Events that count -/

/-- The events are the same and in the same order, but for those left out of account. -/
def Event.SameTrace (own : Event → Bool) (events events' : List Event) : Prop :=
  events.filter (!own ·) = events'.filter (!own ·)

namespace Event.SameTrace

variable {own : Event → Bool} {e : Event} {events events' later later' : List Event}

theorem refl (events : List Event) : SameTrace own events events := rfl

theorem symm (h : SameTrace own events events') : SameTrace own events' events := Eq.symm h

theorem append (h : SameTrace own events events') (hlater : SameTrace own later later') :
    SameTrace own (events ++ later) (events' ++ later') := by
  unfold SameTrace at h hlater ⊢
  rw [List.filter_append, List.filter_append, h, hlater]

theorem cons (e : Event) (h : SameTrace own events events') :
    SameTrace own (e :: events) (e :: events') := append (refl [e]) h

theorem left (he : own e) (h : SameTrace own events events') :
    SameTrace own (e :: events) events' := by
  unfold SameTrace at h ⊢
  rw [List.filter_cons_of_neg (by simp [he]), h]

theorem of_all_own (h : ∀ e ∈ events, own e) (h' : ∀ e ∈ events', own e) :
    SameTrace own events events' := by
  have hnone : ∀ {events : List Event}, (∀ e ∈ events, own e) → events.filter (!own ·) = [] := by
    intro events h
    rw [List.filter_eq_nil_iff]
    intro e he
    simp [h e he]
  exact (hnone h).trans (hnone h').symm

end Event.SameTrace

/-! ## Scripts -/

namespace Script

/-- The scripts go on together from outcome to outcome, and end in the same way. -/
inductive Abreast (own : Event → Bool) (same : Outcome → Outcome → Prop) : Script → Script → Prop where
  | done : Abreast own same done done
  | raised (fault : Fault) : Abreast own same (raised fault) (raised fault)
  | unread : Abreast own same unread unread
  | event (e : Event) {s s' : Script} : Abreast own same s s' →
    Abreast own same (event e s) (event e s')
  | left {e : Event} {s s' : Script} : own e → Abreast own same s s' → Abreast own same (event e s) s'
  | right {e : Event} {s s' : Script} : own e → Abreast own same s s' → Abreast own same s (event e s')
  | outcome {o o' : Outcome} {s s' : Script} : same o o' → Abreast own same s s' →
    Abreast own same (outcome o s) (outcome o' s')

namespace Abreast

variable {own : Event → Bool} {same same' : Outcome → Outcome → Prop} {s s' t t' : Script}

theorem flip (h : Abreast own same s s') : Abreast own (fun o' o => same o o') s' s := by
  induction h with
  | done => exact .done
  | raised fault => exact .raised fault
  | unread => exact .unread
  | event e _ ih => exact .event e ih
  | left he _ ih => exact .right he ih
  | right he _ ih => exact .left he ih
  | outcome ho _ ih => exact .outcome ho ih

theorem single {o o' : Outcome} (h : same o o') : Abreast own same (single o) (single o') :=
  .outcome h .done

theorem refl (hrefl : ∀ o, same o o) (s : Script) : Abreast own same s s := by
  induction s with
  | done => exact .done
  | raised fault => exact .raised fault
  | unread => exact .unread
  | event e rest ih => exact .event e ih
  | outcome o rest ih => exact .outcome (hrefl o) ih

theorem imp (hsame : ∀ o o', same o o' → same' o o') (h : Abreast own same s s') :
    Abreast own same' s s' := by
  induction h with
  | done => exact .done
  | raised fault => exact .raised fault
  | unread => exact .unread
  | event e _ ih => exact .event e ih
  | left he _ ih => exact .left he ih
  | right he _ ih => exact .right he ih
  | outcome ho _ ih => exact .outcome (hsame _ _ ho) ih

/-- Events that one script records on its own may stand before it. -/
theorem withEvents_own_right {events : List Event} (he : ∀ e ∈ events, own e)
    (h : Abreast own same s s') : Abreast own same s (withEvents events s') := by
  induction events with
  | nil => exact h
  | cons e events ih =>
    have hrest := ih fun e' he' => he e' (List.mem_cons_of_mem e he')
    exact .right (he e List.mem_cons_self) hrest

theorem withEvents {events events' : List Event} (he : Event.SameTrace own events events')
    (h : Abreast own same s s') :
    Abreast own same (withEvents events s) (withEvents events' s') := by
  induction events generalizing events' with
  | nil =>
    refine h.withEvents_own_right fun e hmem => ?_
    have hnone := List.filter_eq_nil_iff.mp he.symm e hmem
    simpa using hnone
  | cons e events ih =>
    by_cases hown : own e
    · have hrest : Event.SameTrace own events events' := by
        unfold Event.SameTrace at he
        rwa [List.filter_cons_of_neg (by simp [hown])] at he
      exact .left hown (ih hrest)
    · -- The other run has the same event, behind events of its own.
      have hcons : events'.filter (!own ·) = e :: events.filter (!own ·) := by
        unfold Event.SameTrace at he
        rw [← he, List.filter_cons_of_pos (by simp [hown])]
      obtain ⟨before, after, rfl, hbefore, _, hafter⟩ := List.filter_eq_cons_iff.mp hcons
      rw [← withEvents_withEvents before]
      refine withEvents_own_right (fun e' he' => ?_) (.event e (ih hafter.symm))
      simpa using hbefore e' he'

theorem append (hs : Abreast own same s s') (ht : Abreast own same t t') :
    Abreast own same (s.append t) (s'.append t') := by
  induction hs with
  | done => exact ht
  | raised fault => exact .raised fault
  | unread => exact .unread
  | event e _ ih => exact .event e ih
  | left he _ ih => exact .left he ih
  | right he _ ih => exact .right he ih
  | outcome ho _ ih => exact .outcome ho ih

theorem expand {f f' : Outcome → Script} (hs : Abreast own same s s')
    (hf : ∀ o o', same o o' → Abreast own same' (f o) (f' o')) :
    Abreast own same' (s.expand f) (s'.expand f') := by
  induction hs with
  | done => exact .done
  | raised fault => exact .raised fault
  | unread => exact .unread
  | event e _ ih => exact .event e ih
  | left he _ ih => exact .left he ih
  | right he _ ih => exact .right he ih
  | outcome ho _ ih => exact (hf _ _ ho).append ih

end Abreast

end Script

namespace Action

/-- The actions come to the same outcome or to the same fault. -/
def Abreast (own : Event → Bool) (same : Outcome → Outcome → Prop) (x x' : Action Outcome) : Prop :=
  Script.Abreast own same (.withEvents x.events (.ofResult x.result))
    (.withEvents x'.events (.ofResult x'.result))

variable {own : Event → Bool} {same : Outcome → Outcome → Prop} {events events' : List Event}

theorem Abreast.ok {o o' : Outcome} (he : Event.SameTrace own events events') (ho : same o o') :
    Abreast own same ⟨events, .ok o⟩ ⟨events', .ok o'⟩ := .withEvents he (.single ho)

theorem Abreast.error (he : Event.SameTrace own events events') (fault : Fault) :
    Abreast own same ⟨events, .error fault⟩ ⟨events', .error fault⟩ := .withEvents he (.raised fault)

end Action

/-- The second outcome is the first, perhaps with another value. -/
inductive Outcome.SameButValue : Outcome → Outcome → Prop where
  | success (index : Int) (value value' : Value) :
    SameButValue (success index value) (success index value')
  | failure (index : Int) (expect : String) :
    SameButValue (failure index expect) (failure index expect)

theorem Outcome.SameButValue.symm {o o' : Outcome} (h : o.SameButValue o') : o'.SameButValue o := by
  cases h with
  | success index value value' => exact .success index value' value
  | failure index expect => exact .failure index expect

namespace Script.Abreast

variable {own : Event → Bool} {same same' : Outcome → Outcome → Prop} {s s' : Script}

theorem change {f f' : Outcome → Action Outcome} (hs : Abreast own same s s')
    (hf : ∀ o o', same o o' → (f o).Abreast own same' (f' o')) :
    Abreast own same' (s.change f) (s'.change f') := hs.expand hf

/-- What is absent depends on where successes end, and on nothing else of them. -/
theorem negate (hs : Abreast own same s s') (hsame : ∀ o o', same o o' → o.SameButValue o')
    (hrefl : ∀ o, same' o o) (text : Text) (i : Int) :
    Abreast own same' (s.negate text i) (s'.negate text i) := by
  unfold Script.negate
  induction hs with
  | done => exact .single (hrefl _)
  | raised fault => exact .raised fault
  | unread => exact .unread
  | event e _ ih => exact .event e ih
  | left he _ ih => exact .left he ih
  | right he _ ih => exact .right he ih
  | outcome ho _ ih =>
    cases hsame _ _ ho with
    | success index value value' => exact .single (hrefl _)
    | failure index expect => exact ih

end Script.Abreast

/-! ## Reading -/

/-- The runs show the same, but for events that are left out of account and for what may
differ in outcomes. -/
structure Shown.Agrees (own : Event → Bool) (same : Outcome → Outcome → Prop) (r r' : Shown) : Prop where
  events : Event.SameTrace own r.events r'.events
  outcomes : List.Forall₂ same r.outcomes r'.outcomes
  stop : r.stop = r'.stop

theorem Shown.Agrees.flip {own : Event → Bool} {same : Outcome → Outcome → Prop} {r r' : Shown}
    (h : r'.Agrees own (fun o' o => same o o') r) : r.Agrees own same r' :=
  ⟨h.events.symm, h.outcomes.flip, h.stop.symm⟩

namespace Script.Abreast

variable {own : Event → Bool} {same : Outcome → Outcome → Prop} {s s' : Script}

theorem event_left {e : Event} {wanted : Outcome → Bool} {n : Nat} {r : Shown}
    (h : (Script.event e s).read wanted (n + 1) = some r) :
    ∃ q, s.read wanted (n + 1) = some q ∧ r = { q with events := e :: q.events } := by
  obtain ⟨q, hq, rfl⟩ := Option.map_eq_some_iff.mp h
  exact ⟨q, hq, rfl⟩

/-- Any two scripts show the same as long as nothing is asked of them. -/
theorem read_nothing (s s' : Script) {wanted wanted' : Outcome → Bool} {r : Shown}
    (hr : s.read wanted 0 = some r) : ∃ r', s'.read wanted' 0 = some r' ∧ r.Agrees own same r' := by
  rw [read_none] at hr
  cases hr
  exact ⟨_, read_none _ _, rfl, .nil, rfl⟩

/-- Scripts that go on abreast show the same, however far they are read. -/
theorem read (h : Abreast own same s s') {wanted wanted' : Outcome → Bool}
    (hwanted : ∀ o o', same o o' → wanted o = wanted' o') {n : Nat} {r : Shown}
    (hr : s.read wanted n = some r) : ∃ r', s'.read wanted' n = some r' ∧ r.Agrees own same r' := by
  cases n with
  | zero => exact read_nothing s s' hr
  | succ n =>
    induction h generalizing n r with
    | done =>
      cases hr
      exact ⟨_, rfl, rfl, .nil, rfl⟩
    | raised fault =>
      cases hr
      exact ⟨_, rfl, rfl, .nil, rfl⟩
    | unread => cases hr
    | event e _ ih =>
      obtain ⟨q, hq, rfl⟩ := event_left hr
      obtain ⟨q', hq', hagrees⟩ := ih n hq
      refine ⟨{ q' with events := e :: q'.events }, ?_, hagrees.events.cons e, hagrees.outcomes,
        hagrees.stop⟩
      rw [Script.read, hq']
      rfl
    | left he _ ih =>
      obtain ⟨q, hq, rfl⟩ := event_left hr
      obtain ⟨q', hq', hagrees⟩ := ih n hq
      exact ⟨q', hq', hagrees.events.left he, hagrees.outcomes, hagrees.stop⟩
    | @right e _ _ he _ ih =>
      obtain ⟨q', hq', hagrees⟩ := ih n hr
      refine ⟨{ q' with events := e :: q'.events }, ?_, (hagrees.events.symm.left he).symm,
        hagrees.outcomes, hagrees.stop⟩
      rw [Script.read, hq']
      rfl
    | @outcome o o' s s' ho _ ih =>
      rw [Script.read] at hr ⊢
      rw [← hwanted o o' ho]
      by_cases hw : wanted o
      · rw [if_pos hw] at hr ⊢
        cases hr
        exact ⟨_, rfl, rfl, .cons ho .nil, rfl⟩
      · rw [if_neg hw] at hr ⊢
        obtain ⟨q, hq, rfl⟩ := Option.map_eq_some_iff.mp hr
        have hrest : ∃ q', s'.read wanted' n = some q' ∧ q.Agrees own same q' := by
          cases n with
          | zero => exact read_nothing s s' hq
          | succ n => exact ih n hq
        obtain ⟨q', hq', hagrees⟩ := hrest
        refine ⟨{ q' with outcomes := o' :: q'.outcomes }, ?_, hagrees.events,
          .cons ho hagrees.outcomes, hagrees.stop⟩
        rw [hq']
        rfl

end Script.Abreast

end Backtrack
