-- Seeking: a stream read up to its first success, and to its end if it has none. What is
-- met on the way can be read off the script. In a choice, the first part is sought
-- through, and the second part only if there is no success in the first.
import Backtrack.Proofs.Alternation

namespace Backtrack

namespace Shown

/-- The pulls that it takes to show this much. The end and a fault take one of their own. -/
def pulls (r : Shown) : Nat :=
  match r.stop with
  | .satisfied => r.outcomes.length
  | .exhausted | .faulted _ => r.outcomes.length + 1

/-- All outcomes are failures, but for a success at which the reading stopped. -/
def UpToSuccess (r : Shown) : Prop :=
  match r.stop with
  | .satisfied => ∃ before j v, r.outcomes = before ++ [.success j v] ∧ ∀ o ∈ before, ¬ o.isSuccess
  | .exhausted | .faulted _ => ∀ o ∈ r.outcomes, ¬ o.isSuccess

variable {r : Shown}

/-- To seek a success takes at least one pull. -/
theorem UpToSuccess.exists_pulls (h : r.UpToSuccess) : ∃ k, r.pulls = k + 1 := by
  obtain ⟨events, outcomes, stop⟩ := r
  cases stop with
  | satisfied =>
    obtain ⟨before, j, v, rfl, _⟩ := h
    exact ⟨before.length, by simp [pulls]⟩
  | exhausted | faulted => exact ⟨outcomes.length, rfl⟩

/-- A failure before all that is shown puts the success off by one pull. -/
theorem pulls_failure (r : Shown) (index : Int) (expect : String) :
    pulls { r with outcomes := .failure index expect :: r.outcomes } = r.pulls + 1 := by
  obtain ⟨events, outcomes, stop⟩ := r
  cases stop <;> rfl

theorem upToSuccess_failure (r : Shown) (index : Int) (expect : String) :
    UpToSuccess { r with outcomes := .failure index expect :: r.outcomes } ↔ r.UpToSuccess := by
  obtain ⟨events, outcomes, stop⟩ := r
  cases stop with
  | exhausted | faulted => simp [UpToSuccess, Outcome.isSuccess]
  | satisfied =>
    simp only [UpToSuccess]
    constructor
    · rintro ⟨before, j, v, hshown, hbefore⟩
      cases before with
      | nil => cases hshown
      | cons o before =>
        simp only [List.cons_append, List.cons.injEq] at hshown
        exact ⟨before, j, v, hshown.2, fun o' ho' => hbefore o' (List.mem_cons_of_mem o ho')⟩
    · rintro ⟨before, j, v, rfl, hbefore⟩
      refine ⟨.failure index expect :: before, j, v, rfl, fun o ho => ?_⟩
      rcases List.mem_cons.mp ho with rfl | ho
      · exact Bool.false_ne_true
      · exact hbefore o ho

/-- A success that is met at once is all that is sought. -/
theorem eq_nil_of_upToSuccess_success {j : Int} {v : Value} {later : List Outcome}
    (h : r.UpToSuccess) (hshown : r.outcomes = .success j v :: later) :
    r.stop = .satisfied ∧ later = [] := by
  obtain ⟨events, outcomes, stop⟩ := r
  cases hshown
  cases stop with
  | exhausted | faulted => exact (h _ List.mem_cons_self rfl).elim
  | satisfied =>
    obtain ⟨before, j', v', hsame, hbefore⟩ := h
    cases before with
    | nil =>
      cases hsame
      exact ⟨rfl, rfl⟩
    | cons o before =>
      cases hsame
      exact (hbefore _ List.mem_cons_self rfl).elim

end Shown

/-! ## Scripts -/

namespace Script

/-- What is shown of a script up to its first success. Where it stays unread before,
nothing is. -/
def seek : Script → Option Shown
  | done => some ⟨[], [], .exhausted⟩
  | raised fault => some ⟨[], [], .faulted fault⟩
  | unread => none
  | event e rest => rest.seek.map fun r => { r with events := e :: r.events }
  | outcome (.failure index expect) rest =>
    rest.seek.map fun r => { r with outcomes := .failure index expect :: r.outcomes }
  | outcome (.success index value) _ => some ⟨[], [.success index value], .satisfied⟩

variable {s t : Script} {r : Shown}

/-- What is sought is shown by the pulls that it takes. -/
theorem take_of_seek (h : s.seek = some r) : r.UpToSuccess ∧ s.take r.pulls = some r := by
  unfold take
  induction s generalizing r with
  | done | raised =>
    cases h
    exact ⟨List.forall_mem_nil _, rfl⟩
  | unread => cases h
  | event e rest ih =>
    obtain ⟨r', hr', rfl⟩ := Option.map_eq_some_iff.mp h
    obtain ⟨hfirst, hread⟩ := ih hr'
    obtain ⟨k, hk⟩ := hfirst.exists_pulls
    have hsame : Shown.pulls { r' with events := e :: r'.events } = k + 1 := hk
    rw [hk] at hread
    rw [hsame, read, hread]
    exact ⟨hfirst, rfl⟩
  | outcome o rest ih =>
    cases o with
    | success index value =>
      cases h
      refine ⟨⟨[], index, value, rfl, List.forall_mem_nil _⟩, ?_⟩
      have hpulls : Shown.pulls ⟨[], [.success index value], .satisfied⟩ = 1 := rfl
      rw [hpulls, read, if_neg Bool.false_ne_true, read_none]
      rfl
    | failure index expect =>
      obtain ⟨r', hr', rfl⟩ := Option.map_eq_some_iff.mp h
      obtain ⟨hfirst, hread⟩ := ih hr'
      refine ⟨(Shown.upToSuccess_failure r' index expect).mpr hfirst, ?_⟩
      rw [Shown.pulls_failure, read, if_neg Bool.false_ne_true, hread]
      rfl

/-- What so many pulls show is what is sought, if it ends with the first success or has none. -/
theorem seek_of_take (hfirst : r.UpToSuccess) (h : s.take r.pulls = some r) : s.seek = some r := by
  obtain ⟨k, hk⟩ := hfirst.exists_pulls
  rw [hk] at h
  unfold take at h
  induction s generalizing r k with
  | done | raised => exact h
  | unread => cases h
  | event e rest ih =>
    obtain ⟨r', hr', rfl⟩ := Option.map_eq_some_iff.mp h
    have hrest := ih (r := r') hfirst k hr' hk
    rw [seek, hrest]
    rfl
  | outcome o rest ih =>
    obtain ⟨r', hr', rfl⟩ := Option.map_eq_some_iff.mp h
    cases o with
    | success index value =>
      -- This success is the last that is shown, so the pull for it was the only one.
      obtain ⟨events, outcomes, stop⟩ := r'
      obtain ⟨rfl, rfl⟩ := Shown.eq_nil_of_upToSuccess_success hfirst rfl
      obtain rfl : k = 0 := (Nat.succ.inj hk).symm
      rw [read_none] at hr'
      cases hr'
      rfl
    | failure index expect =>
      rw [Shown.pulls_failure] at hk
      have hfirst' := (Shown.upToSuccess_failure r' index expect).mp hfirst
      obtain ⟨k', hk'⟩ := hfirst'.exists_pulls
      obtain rfl : k = k' + 1 := by omega
      rw [seek, ih hfirst' k' hr' hk']
      rfl

/-- A script that is read further is sought through as before. -/
theorem seek_of_le (h : s ≤ t) (hr : s.seek = some r) : t.seek = some r := by
  obtain ⟨hfirst, htake⟩ := take_of_seek hr
  exact seek_of_take hfirst (read_of_le h htake)

/-- What is sought of a script if one more is sought through behind its end. -/
def seekBehind (t : Script) (first : Shown) : Option Shown :=
  match first.stop with
  | .exhausted => t.seek.map first.followedBy
  | .satisfied | .faulted _ => some first

theorem seekBehind_of_exhausted {first : Shown} (h : first.stop = .exhausted) :
    seekBehind t first = t.seek.map first.followedBy := by
  rw [seekBehind, h]

theorem seekBehind_of_not_exhausted {first : Shown} (h : first.stop ≠ .exhausted) :
    seekBehind t first = some first := by
  unfold seekBehind
  split
  · exact (h ‹_›).elim
  · rfl
  · rfl

/-- What was shown before all that is sought stays before it. -/
theorem seekBehind_followedBy (t : Script) (earlier first : Shown) :
    seekBehind t (earlier.followedBy first) = (seekBehind t first).map earlier.followedBy := by
  obtain ⟨events, outcomes, stop⟩ := first
  cases stop with
  | exhausted =>
    simp only [seekBehind, Shown.followedBy, Option.map_map]
    congr 1
    funext later
    simp [Shown.followedBy]
  | satisfied | faulted => rfl

/-- Of two scripts in turn, the second is sought through behind the end of the first. -/
theorem seek_append (s t : Script) : (s.append t).seek = s.seek.bind (seekBehind t) := by
  induction s with
  | done => exact (Option.map_id' (x := t.seek)).symm
  | raised | unread => rfl
  | event e rest ih =>
    rw [append, seek, seek, ih, Option.map_bind, Option.bind_map]
    congr 1
    funext first
    exact (seekBehind_followedBy t ⟨[e], [], .satisfied⟩ first).symm
  | outcome o rest ih =>
    cases o with
    | success index value => rfl
    | failure index expect =>
      rw [append, seek, seek, ih, Option.map_bind, Option.bind_map]
      congr 1
      funext first
      exact (seekBehind_followedBy t ⟨[], [.failure index expect], .satisfied⟩ first).symm

end Script

/-! ## Parsers -/

namespace Parser

variable {rules : Rules} {text : Text} {p q : Parser} {i : Int} {r : Shown}

/-- Read from an offset up to its first success and no further, the parser shows this. -/
structure Seeks (rules : Rules) (text : Text) (p : Parser) (i : Int) (r : Shown) : Prop where
  first : r.UpToSuccess
  shows : p.Shows rules text i r.pulls r

theorem seeks_iff_seek_script :
    p.Seeks rules text i r ↔ ∃ n, (p.script rules text n i).seek = some r := by
  constructor
  · rintro ⟨hfirst, hshows⟩
    obtain ⟨k, hk⟩ := hfirst.exists_pulls
    rw [hk] at hshows
    obtain ⟨n, hn⟩ := hshows.take_script
    rw [← hk] at hn
    exact ⟨n, Script.seek_of_take hfirst hn⟩
  · rintro ⟨n, hn⟩
    obtain ⟨hfirst, htake⟩ := Script.take_of_seek hn
    obtain ⟨k, hk⟩ := hfirst.exists_pulls
    rw [hk] at htake
    exact ⟨hfirst, hk ▸ shows_of_take_script htake⟩

/-- A choice is sought through like its first part, and behind the end of that, if there is
no success in it, like its second part. -/
theorem seeks_or_iff : (p.or q).Seeks rules text i r ↔
    (p.Seeks rules text i r ∧ r.stop ≠ .exhausted) ∨
      ∃ first later, p.Seeks rules text i first ∧ first.stop = .exhausted ∧
        q.Seeks rules text i later ∧ r = first.followedBy later := by
  simp only [seeks_iff_seek_script, script_or, Script.seek_append]
  constructor
  · rintro ⟨n, hn⟩
    obtain ⟨first, hfirst, hn⟩ := Option.bind_eq_some_iff.mp hn
    by_cases hstop : first.stop = .exhausted
    · rw [Script.seekBehind_of_exhausted hstop] at hn
      obtain ⟨later, hlater, rfl⟩ := Option.map_eq_some_iff.mp hn
      exact Or.inr ⟨first, later, ⟨n, hfirst⟩, hstop, ⟨n, hlater⟩, rfl⟩
    · rw [Script.seekBehind_of_not_exhausted hstop] at hn
      cases hn
      exact Or.inl ⟨⟨n, hfirst⟩, hstop⟩
  · rintro (⟨⟨n, hn⟩, hstop⟩ | ⟨first, later, ⟨n, hn⟩, hstop, ⟨m, hm⟩, rfl⟩)
    · exact ⟨n, by rw [hn, Option.bind_some, Script.seekBehind_of_not_exhausted hstop]⟩
    · -- Both parts are known far enough with the greater of the two limits.
      refine ⟨max n m, ?_⟩
      have hfirst := Script.seek_of_le (script_le (Nat.le_max_left n m) p i) hn
      have hlater := Script.seek_of_le (script_le (Nat.le_max_right n m) q i) hm
      rw [hfirst, Option.bind_some, Script.seekBehind_of_exhausted hstop, hlater]
      rfl

end Parser

end Backtrack
