-- The laws of alternation: choices may be nested in any way, and what follows a choice
-- may be moved into each of its parts. The script of a choice is the scripts of its parts
-- one after the other, and a later one begins where an earlier one has ended without a
-- fault, so until then nothing of it is run.
import Backtrack.Proofs.Sequence

namespace Backtrack

/-- What is shown first, and then what is shown behind its end. -/
def Shown.followedBy (first later : Shown) : Shown :=
  ⟨first.events ++ later.events, first.outcomes ++ later.outcomes, later.stop⟩

namespace Script

/-! ## Reading one script behind another -/

/-- What is shown if one more script is read behind the end of what has been shown, with
the pulls that are left. -/
def readBehind (n : Nat) (t : Script) (first : Shown) : Option Shown :=
  match first.stop with
  | .exhausted => (t.take (n - first.outcomes.length)).map first.followedBy
  | .satisfied | .faulted _ => some first

theorem readBehind_of_exhausted {n : Nat} {t : Script} {first : Shown}
    (h : first.stop = .exhausted) :
    readBehind n t first = (t.take (n - first.outcomes.length)).map first.followedBy := by
  rw [readBehind, h]

theorem readBehind_of_not_exhausted {n : Nat} {t : Script} {first : Shown}
    (h : first.stop ≠ .exhausted) : readBehind n t first = some first := by
  unfold readBehind
  split
  · exact (h ‹_›).elim
  · rfl
  · rfl

theorem readBehind_event (n : Nat) (t : Script) (e : Event) (first : Shown) :
    readBehind n t { first with events := e :: first.events } =
      (readBehind n t first).map fun r => { r with events := e :: r.events } := by
  obtain ⟨events, outcomes, stop⟩ := first
  cases stop with
  | exhausted =>
    simp only [readBehind, Option.map_map]
    rfl
  | satisfied | faulted => rfl

theorem readBehind_outcome (n : Nat) (t : Script) (o : Outcome) (first : Shown) :
    readBehind (n + 1) t { first with outcomes := o :: first.outcomes } =
      (readBehind n t first).map fun r => { r with outcomes := o :: r.outcomes } := by
  obtain ⟨events, outcomes, stop⟩ := first
  cases stop with
  | exhausted =>
    simp only [readBehind, Option.map_map, List.length_cons, Nat.add_sub_add_right]
    rfl
  | satisfied | faulted => rfl

/-- Two scripts read in turn show what the first shows, and behind its end what the
second shows. -/
theorem take_append (s t : Script) (n : Nat) :
    (s.append t).take n = (s.take n).bind (readBehind n t) := by
  unfold take
  induction s generalizing n with
  | done =>
    cases n with
    | zero => rw [read_none, read_none]; rfl
    | succ n => exact (Option.map_id' (x := t.read _ (n + 1))).symm
  | raised fault => cases n <;> rfl
  | unread => cases n <;> rfl
  | event e rest ih =>
    cases n with
    | zero => rfl
    | succ n =>
      rw [append, read, read, ih, Option.map_bind, Option.bind_map]
      congr 1
      funext first
      exact (readBehind_event (n + 1) t e first).symm
  | outcome o rest ih =>
    cases n with
    | zero => rfl
    | succ n =>
      rw [append, read, read, if_neg Bool.false_ne_true, if_neg Bool.false_ne_true, ih,
        Option.map_bind, Option.bind_map]
      congr 1
      funext first
      exact (readBehind_outcome n t o first).symm

/-- The end of a script is found by a pull of its own, behind those for its outcomes. -/
theorem length_outcomes_lt_of_exhausted {s : Script} {n : Nat} {shown : Shown}
    (h : s.take n = some shown) (hstop : shown.stop = .exhausted) : shown.outcomes.length < n := by
  unfold take at h
  induction s generalizing n shown with
  | done =>
    cases n with
    | zero => cases h; cases hstop
    | succ n => cases h; exact Nat.succ_pos n
  | raised | unread => cases n <;> cases h <;> cases hstop
  | event e rest ih =>
    cases n with
    | zero => cases h; cases hstop
    | succ n =>
      obtain ⟨shown', h', rfl⟩ := Option.map_eq_some_iff.mp h
      have hlt := ih h' hstop
      exact hlt
  | outcome o rest ih =>
    cases n with
    | zero => cases h; cases hstop
    | succ n =>
      obtain ⟨shown', h', rfl⟩ := Option.map_eq_some_iff.mp h
      have hlt := ih h' hstop
      exact Nat.succ_lt_succ hlt

/-! ## Any number of scripts -/

/-- Scripts one after the other, each once those before it have ended. -/
def inTurn (scripts : List Script) : Script := scripts.foldr append done

theorem inTurn_append (scripts later : List Script) :
    inTurn (scripts ++ later) = (inTurn scripts).append (inTurn later) := by
  induction scripts with
  | nil => rfl
  | cons s scripts ih =>
    have hnext : ∀ all, inTurn (s :: all) = s.append (inTurn all) := fun _ => rfl
    rw [List.cons_append, hnext, hnext, ih, append_assoc]

theorem append_pairWith (s t : Script) (second : Int → Script) :
    (s.append t).pairWith second = (s.pairWith second).append (t.pairWith second) :=
  append_expand s t (goOn second)

end Script

namespace Parser

variable {rules : Rules} {text : Text} {i : Int} {limit : Nat} {shown : Shown} {p q : Parser}

/-! ## Choices of parsers -/

theorem script_foldl_or (n : Nat) (p : Parser) (ps : List Parser) :
    (ps.foldl or p).script rules text n i =
      .inTurn ((p :: ps).map fun p => p.script rules text n i) := by
  induction ps generalizing p with
  | nil => exact (Script.append_done _).symm
  | cons p' ps ih =>
    rw [List.foldl_cons, ih, List.map_cons, script_or]
    exact Script.append_assoc _ _ _

/-- The script of a choice is the scripts of its parts in turn. -/
theorem script_choice {ps : List Parser} (hps : ps ≠ []) (n : Nat) :
    (choice ps).script rules text n i = .inTurn (ps.map fun p => p.script rules text n i) := by
  cases ps with
  | nil => exact (hps rfl).elim
  | cons p ps => exact script_foldl_or n p ps

theorem waits_foldl_or (hp : p.Waits) (ps : List Parser) : (ps.foldl or p).Waits := by
  induction ps generalizing p with
  | nil => exact hp
  | cons q ps ih => exact ih (p := p.or q) trivial

/-- A choice of more than one waits to be asked. -/
theorem waits_choice_append {ps qs : List Parser} (hps : ps ≠ []) (hqs : qs ≠ []) :
    (choice (ps ++ qs)).Waits := by
  cases ps with
  | nil => exact (hps rfl).elim
  | cons p ps =>
    have hmore : ps ++ qs ≠ [] := by simp [hqs]
    obtain ⟨q, rest, hrest⟩ := List.exists_cons_of_ne_nil hmore
    rw [List.cons_append, hrest]
    exact waits_foldl_or (p := p.or q) trivial rest

theorem script_choice_append {ps qs : List Parser} (hps : ps ≠ []) (hqs : qs ≠ []) (n : Nat)
    (i : Int) : (choice (ps ++ qs)).script rules text n i =
      ((choice ps).or (choice qs)).script rules text n i := by
  have hall : ps ++ qs ≠ [] := by simp [hps]
  rw [script_or, script_choice hall, script_choice hps, script_choice hqs, List.map_append,
    Script.inTurn_append]

/-- What a choice shows: what its first part shows, as long as that has not ended, and
behind the end of the first part what its second part shows from the same start. -/
theorem shows_or_iff : (p.or q).Shows rules text i (limit + 1) shown ↔
    (p.Shows rules text i (limit + 1) shown ∧ shown.stop ≠ .exhausted) ∨
      ∃ first k later, p.Shows rules text i (limit + 1) first ∧ first.stop = .exhausted ∧
        first.outcomes.length + k = limit ∧ q.Shows rules text i (k + 1) later ∧
        shown = first.followedBy later := by
  simp only [shows_iff_take_script, script_or]
  constructor
  · rintro ⟨n, hn⟩
    rw [Script.take_append] at hn
    obtain ⟨first, hfirst, hn⟩ := Option.bind_eq_some_iff.mp hn
    by_cases hstop : first.stop = .exhausted
    · rw [Script.readBehind_of_exhausted hstop] at hn
      obtain ⟨later, hlater, rfl⟩ := Option.map_eq_some_iff.mp hn
      have hlt := Script.length_outcomes_lt_of_exhausted hfirst hstop
      have hk : limit + 1 - first.outcomes.length = (limit - first.outcomes.length) + 1 := by omega
      rw [hk] at hlater
      exact Or.inr ⟨first, _, later, ⟨n, hfirst⟩, hstop, by omega, ⟨n, hlater⟩, rfl⟩
    · rw [Script.readBehind_of_not_exhausted hstop] at hn
      cases hn
      exact Or.inl ⟨⟨n, hfirst⟩, hstop⟩
  · rintro (⟨⟨n, hn⟩, hstop⟩ | ⟨first, k, later, ⟨n, hn⟩, hstop, hk, ⟨m, hm⟩, rfl⟩)
    · exact ⟨n, by rw [Script.take_append, hn, Option.bind_some,
        Script.readBehind_of_not_exhausted hstop]⟩
    · -- Both parts are read far enough with the greater of the two limits.
      refine ⟨max n m, ?_⟩
      have hfirst := Script.read_of_le (script_le (Nat.le_max_left n m) p i) hn
      have hlater := Script.read_of_le (script_le (Nat.le_max_right n m) q i) hm
      have hleft : limit + 1 - first.outcomes.length = k + 1 := by omega
      rw [Script.take_append, Script.take, hfirst, Option.bind_some,
        Script.readBehind_of_exhausted hstop, hleft, Script.take, hlater]
      rfl

/-! ## The laws of alternation -/

/-- Choices of three may be nested either way, choices of choices are choices of all, and
what follows a choice may as well follow each of its parts: step calls and any number of
pulls show the same of both. A choice of some parsers and then some others shows what
the former show as long as they have not ended, so that no step of the latter has been
called by then, nor is one ever called behind a fault of the former; and behind the end
of the former it shows what the latter show. -/
theorem alternation_is_associative_and_distributes (rules : Rules) (text : Text)
    (p q r : Parser) {ps qs : List Parser} (hps : ps ≠ []) (hqs : qs ≠ []) :
    Indistinguishable rules text ((p.or q).or r) (p.or (q.or r)) ∧
    Indistinguishable rules text (choice [choice ps, choice qs]) (choice (ps ++ qs)) ∧
    Indistinguishable rules text ((p.or q).pair r) ((p.pair r).or (q.pair r)) ∧
    ∀ i limit shown, (choice (ps ++ qs)).Shows rules text i (limit + 1) shown ↔
      ((choice ps).Shows rules text i (limit + 1) shown ∧ shown.stop ≠ .exhausted) ∨
        ∃ first k later, (choice ps).Shows rules text i (limit + 1) first ∧
          first.stop = .exhausted ∧ first.outcomes.length + k = limit ∧
          (choice qs).Shows rules text i (k + 1) later ∧ shown = first.followedBy later := by
  refine ⟨?_, ?_, ?_, ?_⟩
  · have hleft : ((p.or q).or r).Waits := trivial
    have hright : (p.or (q.or r)).Waits := trivial
    apply indistinguishable_of_script_eq hleft hright
    intro n i
    simp only [script_or, Script.append_assoc]
  · have hboth : (choice [choice ps, choice qs]).Waits := trivial
    apply indistinguishable_of_script_eq hboth (waits_choice_append hps hqs)
    intro n i
    exact (script_choice_append hps hqs n i).symm
  · have hleft : ((p.or q).pair r).Waits := trivial
    have hright : ((p.pair r).or (q.pair r)).Waits := trivial
    apply indistinguishable_of_script_eq hleft hright
    intro n i
    simp only [script_pair, script_or, Script.append_pairWith]
  · intro i limit shown
    rw [shows_iff_of_script_eq fun n => script_choice_append hps hqs n i]
    exact shows_or_iff

/-- A step function that has no outcome. -/
def mute : Parser := custom fun _ i => ⟨[.called "mute" i], .ok .done⟩

/-- A step function that gives up behind its first outcome. -/
def broken : Parser := custom fun _ i =>
  ⟨[.called "broken" i], .ok <| .outcome (.failure i "more") <| .raised (.raised "stop")⟩

theorem nothing_is_called_behind_a_fault :
    [mute, broken] ≠ [] ∧ [mute] ≠ [] ∧
      (choice ([mute, broken] ++ [mute])).Shows .empty ['a'] 0 2
        ⟨[.called "mute" 0, .called "broken" 0], [.failure 0 "more"], .faulted (.raised "stop")⟩ := by
  have hps : [mute, broken] ≠ [] := by simp
  have hqs : [mute] ≠ [] := by simp
  have hscript : ((choice [mute, broken]).script .empty ['a'] 0 0).take 2 = some
      ⟨[.called "mute" 0, .called "broken" 0], [.failure 0 "more"], .faulted (.raised "stop")⟩ := rfl
  have hlaw := alternation_is_associative_and_distributes .empty ['a'] mute broken mute hps hqs
  refine ⟨hps, hqs, (hlaw.2.2.2 0 1 _).mpr (Or.inl ⟨shows_of_take_script hscript, ?_⟩)⟩
  intro hstop
  cases hstop

end Parser

end Backtrack
