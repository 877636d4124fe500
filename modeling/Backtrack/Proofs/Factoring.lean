-- The law of left factoring: a prefix that two sequences have in common can be read once
-- for both. This changes the order of the candidates and reads the prefix less often, but
-- it keeps every candidate, and so a text is taken or not taken as before, and what is
-- reported of a text that is not taken is what was expected before. Carried by lists put
-- into one another, success by success of the prefix.
import Backtrack.Proofs.Draining
import Backtrack.Proofs.Furthest
import Backtrack.Proofs.WholeText

namespace Backtrack

/-! ## Lists put into one another -/

/-- The third list has the elements of the first two, and those of each in their order. -/
inductive Interleaved {α : Type} : List α → List α → List α → Prop where
  | nil : Interleaved [] [] []
  | left (a : α) {as bs cs : List α} : Interleaved as bs cs → Interleaved (a :: as) bs (a :: cs)
  | right (b : α) {as bs cs : List α} : Interleaved as bs cs → Interleaved as (b :: bs) (b :: cs)

namespace Interleaved

variable {α : Type} {as bs cs as' bs' cs' : List α}

theorem append (h : Interleaved as bs cs) (h' : Interleaved as' bs' cs') :
    Interleaved (as ++ as') (bs ++ bs') (cs ++ cs') := by
  induction h with
  | nil => exact h'
  | left a _ ih => exact .left a ih
  | right b _ ih => exact .right b ih

/-- One list behind the other is one way to put them into one another. -/
theorem behind (as bs : List α) : Interleaved as bs (as ++ bs) := by
  induction as with
  | nil =>
    induction bs with
    | nil => exact .nil
    | cons b bs ih => exact .right b ih
  | cons a as ih => exact .left a ih

theorem perm (h : Interleaved as bs cs) : cs.Perm (as ++ bs) := by
  induction h with
  | nil => exact List.Perm.refl _
  | left a _ ih => exact ih.cons a
  | right b _ ih => exact (ih.cons b).trans List.perm_middle.symm

end Interleaved

namespace Outcome

variable (first second : Int → List Outcome) (outcomes : List Outcome)

/-! ## What goes on behind the successes -/

/-- Where two parsers go on behind every success, the successes are those behind which one
of them goes on and those behind which the other does. -/
theorem interleaved_successes_through :
    Interleaved (successes (outcomes.flatMap (through first)))
      (successes (outcomes.flatMap (through second)))
      (successes (outcomes.flatMap (through fun j => first j ++ second j))) := by
  induction outcomes with
  | nil => exact .nil
  | cons o rest ih =>
    simp only [List.flatMap_cons, successes_append]
    refine Interleaved.append ?_ ih
    cases o with
    | failure index expect => exact .nil
    | success j v =>
      simp only [through, List.map_append, successes_append]
      exact .behind _ _

/-- What goes on behind the successes of a list. -/
def continuations : List Outcome := (successes outcomes).flatMap (through second)

theorem continuations_append_perm :
    (continuations (fun j => first j ++ second j) outcomes).Perm
      (continuations first outcomes ++ continuations second outcomes) := by
  have hboth : continuations (fun j => first j ++ second j) outcomes =
      (successes outcomes).flatMap fun o => through first o ++ through second o := by
    refine List.flatMap_congr fun o ho => ?_
    cases o with
    | failure index expect => cases (List.mem_filter.mp ho).2
    | success j v => exact List.map_append
  rw [hboth]
  exact (List.flatMap_append_perm _ _ _).symm

/-- The failures are those of the list and those of what goes on behind its successes. -/
theorem failures_flatMap_through_perm :
    (failures (outcomes.flatMap (through second))).Perm
      (failures outcomes ++ failures (continuations second outcomes)) := by
  induction outcomes with
  | nil => exact List.Perm.refl _
  | cons o rest ih =>
    rw [List.flatMap_cons, failures_append]
    cases o with
    | failure index expect => exact ih.cons _
    | success j v =>
      have hsuccess : continuations second (.success j v :: rest) =
        through second (.success j v) ++ continuations second rest := rfl
      rw [hsuccess, failures_append]
      exact (ih.append_left _).trans (List.perm_append_comm_assoc _ _ _)

theorem mem_through_append {o o' : Outcome} :
    o' ∈ through (fun j => first j ++ second j) o ↔ o' ∈ through first o ∨ o' ∈ through second o := by
  cases o with
  | failure index expect => exact (or_self_iff).symm
  | success j v => simp only [through, List.map_append, List.mem_append]

end Outcome

/-! ## Reports that agree -/

/-- Two reports are successes that take as much, or failures that got equally far and
expected the same there. -/
def Report.Agrees : Report → Report → Prop
  | success index _, success index' _ => index = index'
  | failure errors, failure errors' => (furthest errors).1 = (furthest errors').1 ∧
    ∀ d, d ∈ (furthest errors).2 ↔ d ∈ (furthest errors').2
  | success _ _, failure _ | failure _, success _ _ => False

namespace Parser

variable {rules : Rules} {text : Text} {p q r : Parser} {i : Int}
  {outcomes outcomes' : List Outcome}

/-- Asked to take the whole text, the parsers give reports that agree. -/
def AgreeToEnd (rules : Rules) (text : Text) (p q : Parser) : Prop :=
  ∃ events events' report report', p.ParsesToEnd rules text ⟨events, .ok report⟩ ∧
    q.ParsesToEnd rules text ⟨events', .ok report'⟩ ∧ report.Agrees report'

/-- Which outcomes a parser has decides what is reported if it is to take the whole text. -/
theorem agreeToEnd_of_same_outcomes (hp : p.Drains rules text 0 outcomes)
    (hq : q.Drains rules text 0 outcomes') (h : ∀ o, o ∈ outcomes ↔ o ∈ outcomes') :
    AgreeToEnd rules text p q := by
  obtain ⟨events, limit, hshows⟩ := drains_iff_exhausts.mp hp
  obtain ⟨events', limit', hshows'⟩ := drains_iff_exhausts.mp hq
  by_cases htaken : ∃ v, .success text.length v ∈ outcomes
  · obtain ⟨v, hv⟩ := htaken
    obtain ⟨before, w, after, houtcomes, hbefore⟩ := Outcome.exists_first_takesAll hv
    obtain ⟨before', w', after', houtcomes', hbefore'⟩ := Outcome.exists_first_takesAll ((h _).mp hv)
    obtain ⟨_, _, hparse⟩ := parsesToEnd_of_first hshows houtcomes hbefore
    obtain ⟨_, _, hparse'⟩ := parsesToEnd_of_first hshows' houtcomes' hbefore'
    exact ⟨_, _, _, _, hparse, hparse', rfl⟩
  · have hnone : ∀ w, .success text.length w ∉ outcomes := fun w hw => htaken ⟨w, hw⟩
    have hnone' : ∀ w, .success text.length w ∉ outcomes' := fun w hw => hnone w ((h _).mpr hw)
    refine ⟨_, _, _, _, parsesToEnd_of_exhausted hshows rfl (Outcome.not_takesAll hnone),
      parsesToEnd_of_exhausted hshows' rfl (Outcome.not_takesAll hnone'), ?_⟩
    apply Report.furthest_congr
    intro e
    simp only [List.mem_map, h]

/-! ## The law of left factoring -/

/-- Two sequences with a common first part give the same as that part with the choice of
their second parts behind it, but for the order and for what the first part fails with. The
successes that go through either second part stand in the same order in both forms; in the
one they are put into one another, and in the other one behind the other. The failures of
the first part stand once in the one form and twice in the other, beside those of the second
parts, which are the same in both. So a text is taken by both forms or by neither, and if by
neither, then both fail equally far and with the same expectations there. -/
theorem left_factoring_keeps_all_parses {first second : Int → List Outcome}
    (hp : p.Drains rules text i outcomes)
    (hq : ∀ j v, .success j v ∈ outcomes → q.Drains rules text j (first j))
    (hr : ∀ j v, .success j v ∈ outcomes → r.Drains rules text j (second j)) :
    ∃ factored viaFirst viaSecond further,
      (p.pair (q.or r)).Drains rules text i factored ∧
      (p.pair q).Drains rules text i viaFirst ∧ (p.pair r).Drains rules text i viaSecond ∧
      ((p.pair q).or (p.pair r)).Drains rules text i (viaFirst ++ viaSecond) ∧
      Interleaved (Outcome.successes viaFirst) (Outcome.successes viaSecond)
        (Outcome.successes factored) ∧
      (Outcome.successes factored).Perm (Outcome.successes (viaFirst ++ viaSecond)) ∧
      (Outcome.failures factored).Perm (Outcome.failures outcomes ++ further) ∧
      (Outcome.failures (viaFirst ++ viaSecond)).Perm
        (Outcome.failures outcomes ++ (Outcome.failures outcomes ++ further)) ∧
      (i = 0 → AgreeToEnd rules text (p.pair (q.or r)) ((p.pair q).or (p.pair r))) := by
  have hboth : ∀ j v, .success j v ∈ outcomes →
      (q.or r).Drains rules text j (first j ++ second j) := fun j v hv =>
    (hq j v hv).or (hr j v hv)
  have hfactored := hp.pair hboth
  have hviaFirst := hp.pair hq
  have hviaSecond := hp.pair hr
  have happart := hviaFirst.or hviaSecond
  have hinterleaved := Outcome.interleaved_successes_through first second outcomes
  refine ⟨_, _, _, Outcome.failures (Outcome.continuations first outcomes ++
    Outcome.continuations second outcomes), hfactored, hviaFirst, hviaSecond, happart, hinterleaved,
    ?_, ?_, ?_, ?_⟩
  · rw [Outcome.successes_append]
    exact hinterleaved.perm
  · have hfailures := Outcome.failures_flatMap_through_perm (fun j => first j ++ second j) outcomes
    have hfurther := (Outcome.continuations_append_perm first second outcomes).filter
      fun o => !o.isSuccess
    exact hfailures.trans (hfurther.append_left _)
  · have hfirst := Outcome.failures_flatMap_through_perm first outcomes
    have hsecond := Outcome.failures_flatMap_through_perm second outcomes
    rw [Outcome.failures_append, Outcome.failures_append]
    refine (hfirst.append hsecond).trans ?_
    -- The failures of both readings of the first part come to the front.
    rw [List.append_assoc]
    exact (List.perm_append_comm_assoc _ _ _).append_left _
  · rintro rfl
    apply agreeToEnd_of_same_outcomes hfactored happart
    intro o
    simp only [List.mem_append, List.mem_flatMap, Outcome.mem_through_append, and_or_left, exists_or]

/-- Two literals of which one begins the other, before any character or a literal. Factored
out, the candidates through the second part come between those through the first. -/
theorem overlapping_literals_are_factored_out :
    let text : Text := ['a', 'b', 'c']
    let p : Parser := choice [string "a", string "ab", string "c"]
    let q : Parser := leaf .anyChar
    let r : Parser := string "bc"
    let outcomes : List Outcome :=
      [.success 1 (.str "a"), .success 2 (.str "ab"), .failure 0 "string c"]
    let first : Int → List Outcome := fun j => (q.script .empty text 0 j).outcomes
    let second : Int → List Outcome := fun j => (r.script .empty text 0 j).outcomes
    p.Drains .empty text 0 outcomes ∧
      (∀ j v, .success j v ∈ outcomes → q.Drains .empty text j (first j)) ∧
      (∀ j v, .success j v ∈ outcomes → r.Drains .empty text j (second j)) ∧
      (∃ factored apart, (p.pair (q.or r)).Drains .empty text 0 factored ∧
        ((p.pair q).or (p.pair r)).Drains .empty text 0 apart ∧
        (Outcome.successes factored).Perm (Outcome.successes apart)) ∧
      AgreeToEnd .empty text (p.pair (q.or r)) ((p.pair q).or (p.pair r)) := by
  intro text p q r outcomes first second
  have hunbroken : (p.script .empty text 0 0).Unbroken := trivial
  have hp : p.Drains .empty text 0 outcomes := drains_of_unbroken hunbroken
  have hends : ∀ j v, .success j v ∈ outcomes → j = 1 ∨ j = 2 := by
    intro j v hv
    simp only [outcomes, List.mem_cons, List.not_mem_nil, Outcome.success.injEq, reduceCtorEq,
      or_false] at hv
    exact hv.imp And.left And.left
  have hq : ∀ j v, .success j v ∈ outcomes → q.Drains .empty text j (first j) := by
    intro j v hv
    apply drains_of_unbroken
    rcases hends j v hv with rfl | rfl <;> trivial
  have hr : ∀ j v, .success j v ∈ outcomes → r.Drains .empty text j (second j) := by
    intro j v hv
    apply drains_of_unbroken
    rcases hends j v hv with rfl | rfl <;> trivial
  obtain ⟨factored, viaFirst, viaSecond, _, hfactored, _, _, happart, _, hperm, _, _, hagree⟩ :=
    left_factoring_keeps_all_parses hp hq hr
  exact ⟨hp, hq, hr, ⟨factored, _, hfactored, happart, hperm⟩, hagree rfl⟩

end Parser

end Backtrack
