-- The laws of absence: asking that something is absent follows the laws of negation, with
-- all that is recorded on the way. Such a parser only seeks the first success of another
-- one and draws one conclusion from it, so laws of seeking are laws of absence.
import Backtrack.Proofs.Draining
import Backtrack.Proofs.Seeking

namespace Backtrack

/-! ## Conclusions -/

namespace Outcome

/-- What is concluded from outcomes: something of the end of the first success, and
something else if there is none. -/
def concluded (found : Int → Outcome) (otherwise : Outcome) (outcomes : List Outcome) : Outcome :=
  match successes outcomes with
  | [] => otherwise
  | o :: _ => found o.index

/-- What is given at an offset of something that is not to be absent, from what the thing
itself gives. -/
def present (start : Int) (outcomes : List Outcome) : Outcome :=
  match successes outcomes with
  | [] => failure start "not string "
  | _ :: _ => success start .none

theorem concluded_append {found : Int → Outcome} {otherwise : Outcome} {outcomes : List Outcome}
    (hnone : ∀ o ∈ outcomes, ¬ o.isSuccess) (later : List Outcome) :
    concluded found otherwise (outcomes ++ later) = concluded found otherwise later := by
  have hfirst : successes outcomes = [] := List.filter_eq_nil_iff.mpr hnone
  rw [concluded, successes_append, hfirst]
  rfl

end Outcome

/-- What is shown in a first pull and so many more, if the first one seeks as much and then
one outcome is concluded. Behind a fault nothing is. -/
def Shown.concluding (r : Shown) (o : Outcome) (more : Nat) : Shown :=
  match r.stop with
  | .faulted fault => ⟨r.events, [], .faulted fault⟩
  | .satisfied | .exhausted => ⟨r.events, [o], if more = 0 then .satisfied else .exhausted⟩

namespace Script

theorem take_single (o : Outcome) (n : Nat) : (single o).take (n + 1) =
    some ⟨[], [o], if n = 0 then .satisfied else .exhausted⟩ := by
  cases n <;> rfl

/-- A script that is cut at its first success shows one conclusion from what is sought. -/
theorem take_upToSuccess (found : Int → Outcome) (otherwise : Outcome) (s : Script) (n : Nat) :
    (upToSuccess (fun stop => single (found stop)) (single otherwise) s).take (n + 1) =
      s.seek.map fun r => r.concluding (.concluded found otherwise r.outcomes) n := by
  induction s with
  | done => exact take_single otherwise n
  | raised | unread => rfl
  | event e rest ih =>
    unfold take at ih ⊢
    rw [upToSuccess, read, ih, seek, Option.map_map, Option.map_map]
    congr 1
    funext r
    obtain ⟨events, outcomes, stop⟩ := r
    cases stop <;> rfl
  | outcome o rest ih =>
    cases o with
    | success index value => exact take_single (found index) n
    | failure index expect =>
      rw [upToSuccess, ih, seek, Option.map_map]
      rfl

/-- A script that is cut twice is cut once, with the pieces that take its place cut again. -/
theorem upToSuccess_upToSuccess (found found' : Int → Script) (otherwise otherwise' s : Script) :
    upToSuccess found' otherwise' (upToSuccess found otherwise s) =
      upToSuccess (fun stop => upToSuccess found' otherwise' (found stop))
        (upToSuccess found' otherwise' otherwise) s := by
  induction s with
  | done | raised | unread => rfl
  | event e rest ih => exact congrArg (event e) ih
  | outcome o rest ih =>
    cases o with
    | success index value => rfl
    | failure index expect => exact ih

/-- Which failures stand for a success that is met matters to no success. -/
theorem success_mem_upToSuccess {found found' : Int → Outcome} (otherwise : Outcome)
    (hfound : ∀ stop, ¬ (found stop).isSuccess) (hfound' : ∀ stop, ¬ (found' stop).isSuccess)
    {s : Script} {j : Int} {v : Value} :
    .success j v ∈ (upToSuccess (fun stop => single (found stop)) (single otherwise) s).outcomes ↔
      .success j v ∈ (upToSuccess (fun stop => single (found' stop)) (single otherwise) s).outcomes := by
  have hnot : ∀ {o : Outcome}, ¬ o.isSuccess → .success j v ∉ (single o).outcomes := by
    intro o ho hmem
    rw [outcomes_single, List.mem_singleton] at hmem
    subst hmem
    exact ho rfl
  induction s with
  | done | raised | unread => rfl
  | event e rest ih => exact ih
  | outcome o rest ih =>
    cases o with
    | success index value => exact iff_of_false (hnot (hfound index)) (hnot (hfound' index))
    | failure index expect => exact ih

/-- What is absent of two scripts in turn is absent of the first and then of the second. -/
theorem negate_append (text : Text) (i : Int) (s t : Script) :
    (s.append t).negate text i = (s.negate text i).expand (Parser.fromEnd fun _ => t.negate text i) := by
  unfold negate
  induction s with
  | done => exact (append_done _).symm
  | raised | unread => rfl
  | event e rest ih => exact congrArg (event e) ih
  | outcome o rest ih =>
    cases o with
    | success index value => rfl
    | failure index expect => exact ih

end Script

namespace Parser

variable {rules : Rules} {text : Text} {p q : Parser} {i : Int} {limit : Nat} {shown : Shown}

/-! ## Parsers of absence -/

/-- What is seen of a parser by one that draws a conclusion from its script. -/
theorem shows_iff_seeks {conclusion : List Outcome → Outcome}
    (h : ∀ n, (q.script rules text n i).take (limit + 1) =
      (p.script rules text n i).seek.map fun r => r.concluding (conclusion r.outcomes) limit) :
    q.Shows rules text i (limit + 1) shown ↔ ∃ r, p.Seeks rules text i r ∧
      shown = r.concluding (conclusion r.outcomes) limit := by
  simp only [shows_iff_take_script, seeks_iff_seek_script, h, Option.map_eq_some_iff]
  constructor
  · rintro ⟨n, r, hr, rfl⟩
    exact ⟨r, ⟨n, hr⟩, rfl⟩
  · rintro ⟨r, ⟨n, hr⟩, rfl⟩
    exact ⟨n, r, hr, rfl⟩

/-- A parser to be absent seeks the first success of that parser at its first pull. -/
theorem shows_not_iff : p.not.Shows rules text i (limit + 1) shown ↔
    ∃ r, p.Seeks rules text i r ∧ shown = r.concluding (.absent text i r.outcomes) limit := by
  apply shows_iff_seeks
  intro n
  rw [script_not]
  exact Script.take_upToSuccess (presence text i) (.success i .none) _ limit

/-- A success that takes nothing is quoted as nothing. -/
theorem presence_self (text : Text) (i : Int) : presence text i i = .failure i "not string " := by
  rw [presence, Text.between_self]
  rfl

theorem script_not_not (n : Nat) : p.not.not.script rules text n i =
    .upToSuccess (fun _ => .single (.success i .none)) (.single (.failure i "not string "))
      (p.script rules text n i) := by
  rw [script_not, script_not, ← presence_self text i]
  exact Script.upToSuccess_upToSuccess _ _ _ _ _

theorem script_not_not_not (n : Nat) : p.not.not.not.script rules text n i =
    .upToSuccess (fun _ => .single (.failure i "not string ")) (.single (.success i .none))
      (p.script rules text n i) := by
  rw [script_not, script_not_not, ← presence_self text i]
  exact Script.upToSuccess_upToSuccess _ _ _ _ _

/-- A parser not to be absent is sought in the same way, and the conclusion is the other one. -/
theorem shows_not_not_iff : p.not.not.Shows rules text i (limit + 1) shown ↔
    ∃ r, p.Seeks rules text i r ∧ shown = r.concluding (.present i r.outcomes) limit := by
  apply shows_iff_seeks
  intro n
  rw [script_not_not]
  exact Script.take_upToSuccess (fun _ => .success i .none) (.failure i "not string ") _ limit

/-- What is concluded behind the end of a parser without a success is concluded from what
is sought behind it. -/
theorem Seeks.concluding_followedBy {first later : Shown} (h : p.Seeks rules text i first)
    (hstop : first.stop = .exhausted) :
    (first.followedBy later).concluding (.absent text i (first.followedBy later).outcomes) limit =
      (first.followedBy later).concluding (.absent text i later.outcomes) limit := by
  obtain ⟨events, outcomes, stop⟩ := first
  cases hstop
  have habsent : Outcome.absent text i (outcomes ++ later.outcomes) =
      .absent text i later.outcomes := Outcome.concluded_append h.first later.outcomes
  exact congrArg (Shown.concluding _ · limit) habsent

theorem yields_iff_mem_script {o : Outcome} :
    p.Yields rules text i o ↔ ∃ n, o ∈ (p.script rules text n i).outcomes := by
  constructor
  · exact Yields.mem_script
  · rintro ⟨n, hn⟩
    exact yields_of_mem_script hn

/-! ## The laws of absence -/

/-- Asking that neither of two parsers has a success is asking it of the one and then of the
other: step calls and any number of pulls show the same of both. The first pull seeks
through the first parser, and only if that ends without a success through the second one;
then the failure quotes what the success takes, or there is a success that takes nothing,
and that is all. Asking that a parser is not absent seeks through it in the same way, and
gives a success that takes nothing if it has one, and otherwise a failure that quotes
nothing. So asking three times succeeds exactly where asking once does. -/
theorem absence_follows_the_laws_of_negation (rules : Rules) (text : Text) (p q : Parser) :
    Indistinguishable rules text (p.or q).not (p.not.keepSecond q.not) ∧
    (∀ i limit shown, (p.or q).not.Shows rules text i (limit + 1) shown ↔
      (∃ r, p.Seeks rules text i r ∧ r.stop ≠ .exhausted ∧
        shown = r.concluding (.absent text i r.outcomes) limit) ∨
      ∃ first later, p.Seeks rules text i first ∧ first.stop = .exhausted ∧
        q.Seeks rules text i later ∧
        shown = (first.followedBy later).concluding (.absent text i later.outcomes) limit) ∧
    (∀ i limit shown, p.not.not.Shows rules text i (limit + 1) shown ↔
      ∃ r, p.Seeks rules text i r ∧ shown = r.concluding (.present i r.outcomes) limit) ∧
    ∀ i j v, p.not.not.not.Yields rules text i (.success j v) ↔
      p.not.Yields rules text i (.success j v) := by
  refine ⟨?_, fun i limit shown => ?_, fun i limit shown => ?_, fun i j v => ?_⟩
  · have hleft : (p.or q).not.Waits := trivial
    have hright : (p.not.keepSecond q.not).Waits := trivial
    apply indistinguishable_of_script_eq hleft hright
    intro n i
    rw [script_not, script_or, script_keepSecond, script_not, Script.negate_append]
    refine Script.expand_congr fun o ho => ?_
    -- Both parsers are asked for at the same start, since absence takes nothing.
    rcases Script.mem_outcomes_negate ho with ⟨stop, rfl⟩ | rfl
    · rfl
    · exact (script_not rules text n i q).symm
  · rw [shows_not_iff]
    constructor
    · rintro ⟨r, hr, rfl⟩
      rcases seeks_or_iff.mp hr with ⟨hfirst, hstop⟩ | ⟨first, later, hfirst, hstop, hlater, rfl⟩
      · exact Or.inl ⟨r, hfirst, hstop, rfl⟩
      · exact Or.inr ⟨first, later, hfirst, hstop, hlater, hfirst.concluding_followedBy hstop⟩
    · rintro (⟨r, hfirst, hstop, rfl⟩ | ⟨first, later, hfirst, hstop, hlater, rfl⟩)
      · exact ⟨r, seeks_or_iff.mpr (Or.inl ⟨hfirst, hstop⟩), rfl⟩
      · have hboth := seeks_or_iff.mpr (Or.inr ⟨first, later, hfirst, hstop, hlater, rfl⟩)
        exact ⟨_, hboth, (hfirst.concluding_followedBy hstop).symm⟩
  · exact shows_not_not_iff
  · simp only [yields_iff_mem_script]
    refine exists_congr fun n => ?_
    rw [script_not_not_not, script_not]
    refine Script.success_mem_upToSuccess (.success i .none) (fun stop => ?_) fun stop => ?_
    · exact Bool.false_ne_true
    · exact Bool.false_ne_true

end Parser

end Backtrack
