-- The law of the guard: repetitions show what a depth-first traversal of their items shows,
-- which stops at the first success that takes nothing. One equation says what repetitions
-- make of one outcome of the item, and the traversal, the chains of what is given, and the
-- values are read off it.
import Backtrack.Proofs.Repetition
import Backtrack.Proofs.Routes

namespace Backtrack

/-! ## Chains of what a parser offers -/

namespace Chain

/-- Each candidate ends behind its start. -/
def Moves : Int → Chain → Prop
  | _, [] => True
  | i, c :: rest => i < c.stop ∧ Moves c.stop rest

end Chain

namespace Parser

/-- The parser offers the first candidate at the offset, and each other one at the end of
the one before it. -/
def Chained (rules : Rules) (text : Text) (p : Parser) : Int → Chain → Prop
  | _, [] => True
  | i, c :: rest => p.Offers rules text i c ∧ p.Chained rules text c.stop rest

variable {rules : Rules} {text : Text} {p : Parser} {i j : Int} {n : Nat} {v w : Value}

theorem chained_of_links {a : Chain}
    (h : Chain.Links (fun k => (p.script rules text n k).outcomes) i a) :
    p.Chained rules text i a := by
  induction a generalizing i with
  | nil => trivial
  | cons c a ih => exact ⟨offers_iff_script.mpr ⟨n, h.1⟩, ih h.2⟩

/-! ## What repetitions make of an outcome -/

/-- What repetitions from a start make of an outcome of the item: a success that gets past
the start goes on with further ones, and any other is refused. -/
def guarded (start : Int) (further : Int → Script) : Outcome → Script
  | .failure index expect => .single (.failure index expect)
  | .success index value =>
    if index ≤ start then .refusal start else extended further (.success index value)

variable {body further : Int → Script}

/-- Repetitions are what they make of each outcome of the item, and then no item. -/
theorem repeated_succ_eq_guarded : repeated body (n + 1) i =
    ((body i).expand (guarded i (repeated body n))).append (.single (.success i (.list []))) := by
  rw [repeated, change_consValues _ fun _ _ _ h => list_of_mem_repeated h, Script.change,
    Script.expand_expand]
  congr 2
  funext o
  cases o with
  | failure index expect => rfl
  | success j v =>
    rw [guarded, requireProgress]
    by_cases hj : j ≤ i
    · rw [if_pos hj, if_pos hj]
      rfl
    · rw [if_neg hj, if_neg hj]
      exact Script.single_expand _ _

/-- A parser before one that gives lists goes on with what that gives. -/
theorem script_cons {q : Parser} (hlists : ∀ i j v, .success j v ∈ (q.script rules text n i).outcomes →
      ∃ vs, v = .list vs) :
    (p.cons q).script rules text n i =
      (p.script rules text n i).expand (extended (q.script rules text n)) := by
  rw [cons, map, script_mapOutcome, script_pair]
  exact change_consValues _ hlists

/-- One parser and then any number of repetitions of another one. -/
theorem script_cons_many (q : Parser) : (p.cons q.many).script rules text n i =
    (p.script rules text n i).expand (extended (repeated (q.script rules text n) n)) := by
  have hmany : q.many.script rules text n = repeated (q.script rules text n) n :=
    funext fun j => script_many rules text n j q
  rw [script_cons, hmany]
  intro j k w h
  rw [hmany] at h
  exact list_of_mem_repeated h

/-- Only a success that gets past the start leaves repetitions a way to go on. -/
theorem unbroken_guarded_success : (guarded i further (.success j v)).Unbroken ↔
    i < j ∧ (further j).Unbroken := by
  rw [guarded]
  by_cases hj : j ≤ i
  · rw [if_pos hj]
    exact iff_of_false id fun h => absurd h.1 (Int.not_lt.mpr hj)
  · rw [if_neg hj, extended, Script.unbroken_expand_single]
    exact (and_iff_right (Int.not_le.mp hj)).symm

theorem mem_outcomes_guarded_success {o : Outcome}
    (h : o ∈ (guarded i further (.success j v)).outcomes) :
    i < j ∧ ∃ o' ∈ (further j).outcomes, o = o'.consOnto v := by
  rw [guarded] at h
  by_cases hj : j ≤ i
  · rw [if_pos hj] at h
    cases h
  · rw [if_neg hj, outcomes_extended] at h
    obtain ⟨o', ho', rfl⟩ := List.mem_map.mp h
    exact ⟨Int.not_le.mp hj, o', ho', rfl⟩

/-- Repetitions come to an end only where all successes of the item get past the start,
and further repetitions come to an end behind them. -/
theorem unbroken_repeated_succ : (repeated body (n + 1) i).Unbroken ↔ (body i).Unbroken ∧
    ∀ j v, .success j v ∈ (body i).outcomes → i < j ∧ (repeated body n j).Unbroken := by
  rw [repeated_succ_eq_guarded, Script.unbroken_append, Script.unbroken_expand]
  refine (and_iff_left trivial).trans (and_congr_right fun _ => ?_)
  constructor
  · intro h j v hv
    exact unbroken_guarded_success.mp (h _ hv)
  · intro h o ho
    cases o with
    | failure index expect => trivial
    | success j v => exact unbroken_guarded_success.mpr (h j v ho)

/-! ## The chains of what is given -/

/-- What repetitions give stands for a chain of candidates that move on. A success of the
item that takes nothing is not reached before it: it stands behind the first candidate of
the chain. -/
theorem chain_of_mem_repeated (h : .success j w ∈ (repeated body n i).outcomes) :
    ∃ a, Chain.Links (fun k => (body k).outcomes) i a ∧ Chain.Moves i a ∧
      .success j w = Chain.outcome i a ∧
      ∀ c : Candidate, (body i).outcomes[c.place]? = some (.success c.stop c.value) → c.stop ≤ i →
        ∃ d rest, a = d :: rest ∧ d.place < c.place := by
  -- On how many items may follow each other: the chain of further ones gets the candidate
  -- that they stand behind.
  induction n generalizing i j w with
  | zero => cases h
  | succ n ih =>
    rw [repeated_succ_eq_guarded] at h
    rcases Script.mem_outcomes_append_iff.mp h with h | ⟨hunbroken, h⟩
    · obtain ⟨place, o, ho, hmem, hbefore⟩ := Script.exists_place_of_mem_outcomes_expand h
      cases o with
      | failure index expect => cases List.mem_singleton.mp hmem
      | success k v =>
        obtain ⟨hk, o', ho', heq⟩ := mem_outcomes_guarded_success hmem
        cases o' with
        | failure index expect => cases heq
        | success j' w' =>
          obtain ⟨a, hlinks, hmoves, houtcome, _⟩ := ih ho'
          refine ⟨⟨place, k, v⟩ :: a, ⟨ho, hlinks⟩, ⟨hk, hmoves⟩, ?_, fun c hc hstop => ?_⟩
          · rw [houtcome] at heq
            exact heq
          · refine ⟨_, a, rfl, ?_⟩
            -- The candidate is neither before the first one of the chain nor the same.
            rcases Nat.lt_trichotomy c.place place with hlt | heq' | hgt
            · have hgood := unbroken_guarded_success.mp (hbefore c.place hlt _ hc)
              exact absurd hgood.1 (Int.not_lt.mpr hstop)
            · rw [heq', ho] at hc
              cases hc
              exact absurd hk (Int.not_lt.mpr hstop)
            · exact hgt
    · cases List.mem_singleton.mp h
      refine ⟨[], trivial, trivial, rfl, fun c hc hstop => ?_⟩
      have hgood := (Script.unbroken_expand.mp hunbroken).2 _ (List.mem_of_getElem? hc)
      exact absurd (unbroken_guarded_success.mp hgood).1 (Int.not_lt.mpr hstop)

end Parser

/-! ## The traversal of repetitions -/

namespace Repetition

/-- A place in repetitions: where the next item starts, and the values of those before it. -/
structure Place where
  start : Int
  taken : List Value

/-- Repetitions depth first: behind a success, which has to get past the start, comes one
more item, and at the end of each stream what was taken up to there is given. -/
def plan (p : Parser) : Plan Place where
  parser _ := p
  start place := place.start
  behind place j v := ⟨j, place.taken ++ [v]⟩
  floor place := some place.start
  closing place := some (.success place.start (.list place.taken))

end Repetition

namespace Outcome

/-- The outcome with values put before those of a success. -/
def behind (taken : List Value) : Outcome → Outcome
  | success index others => success index (.list (taken ++ others.elements?.getD []))
  | failure index expect => failure index expect

theorem behind_consOnto (taken : List Value) (v : Value) (o : Outcome) :
    (o.consOnto v).behind taken = o.behind (taken ++ [v]) := by
  cases o with
  | failure index expect => rfl
  | success index others => simp [consOnto, behind]

end Outcome

namespace Parser

variable {rules : Rules} {text : Text} {p : Parser} {i : Int} {n : Nat} {body : Int → Script}

/-- What repetitions make of an outcome, with values put before, is what the traversal
puts in its place. -/
theorem expand_guarded_behind {further : Int → Script} {taken : List Value} (o : Outcome) :
    ((guarded i further o).expand fun o => .single (o.behind taken)) = match o with
      | .failure index expect => .single (.failure index expect)
      | .success j v =>
        if j ≤ i then .refusal i else (further j).expand fun o => .single (o.behind (taken ++ [v])) := by
  cases o with
  | failure index expect => rfl
  | success j v =>
    by_cases hj : j ≤ i
    · simp only [guarded, if_pos hj]
      rfl
    · simp only [guarded, if_neg hj, extended, Script.expand_expand]
      congr 1
      funext o
      rw [← Outcome.behind_consOnto]
      exact Script.single_expand _ _

theorem tour_repetition (taken : List Value) :
    (Repetition.plan p).tour (fun place => body place.start) n ⟨i, taken⟩ =
      (repeated body n i).expand fun o => .single (o.behind taken) := by
  induction n generalizing i taken with
  | zero => rfl
  | succ n ih =>
    rw [Plan.tour, Plan.onward, repeated_succ_eq_guarded, Script.append_expand,
      Script.expand_expand]
    refine congr (congrArg Script.append (Script.expand_congr fun o _ => ?_)) ?_
    · rw [expand_guarded_behind]
      cases o with
      | failure index expect => rfl
      | success j v =>
        have hfurther := ih (i := j) (taken ++ [v])
        simp only [← hfurther]
        rfl
    · simp [Repetition.plan, Script.ofOutcomes, Script.single, Script.expand, Script.append,
        Outcome.behind]

/-- Before anything is taken, nothing is put before the values of repetitions. -/
theorem expand_behind_repeated :
    ((repeated body n i).expand fun o => .single (o.behind [])) = repeated body n i := by
  refine Eq.trans (Script.expand_congr fun o ho => ?_) (Script.expand_outcome _)
  cases o with
  | failure index expect => rfl
  | success j w =>
    obtain ⟨ws, rfl⟩ := list_of_mem_repeated ho
    rfl

theorem shows_many_iff {limit : Nat} {shown : Shown} : p.many.Shows rules text i limit shown ↔
    (Repetition.plan p).Shows rules text ⟨i, []⟩ limit shown := by
  refine shows_iff_plan id trivial (fun n => Nat.le_refl n) fun n => ?_
  rw [script_many]
  exact expand_behind_repeated.symm.trans (tour_repetition []).symm

/-! ## The law of the guard -/

/-- Repetitions show what the depth-first traversal of their items shows. A fault is shown
exactly if the traversal comes to one of the item, which stays as it is, or to a success
that ends at or before the start of its own repetition: then the fault carries that start,
and so does the log record that is written right before it. Whatever else is recorded and
given is recorded and given by the steps that led there, and nothing is read behind that
success. What is given stands for a chain of candidates in which each one moves on. -/
theorem repetitions_stop_at_the_first_success_that_takes_nothing (rules : Rules) (text : Text)
    (p : Parser) (i : Int) :
    (∀ limit shown, p.many.Shows rules text i limit shown ↔
      (Repetition.plan p).Shows rules text ⟨i, []⟩ limit shown) ∧
    (∀ limit events outcomes fault,
      p.many.Shows rules text i limit ⟨events, outcomes, .faulted fault⟩ ↔
        ∃ steps levels, (Repetition.plan p).Comes rules text ⟨i, []⟩ steps levels ∧
          outcomes = Step.outcomes steps ∧ outcomes.length < limit ∧
          (Plan.Faults levels fault ∧ events = Step.events steps ∨
            ∃ k, (Repetition.plan p).Refuses levels k ∧ fault = .emptyRepetition k ∧
              events = Step.events steps ++ [.logged (.emptyRepetition k)])) ∧
    ∀ limit shown j v, p.many.Shows rules text i limit shown → .success j v ∈ shown.outcomes →
      ∃ a, p.Chained rules text i a ∧ Chain.Moves i a ∧ .success j v = Chain.outcome i a := by
  refine ⟨fun limit shown => shows_many_iff, fun limit events outcomes fault => ?_, ?_⟩
  · exact shows_many_iff.trans Plan.shows_faulted_iff
  · intro limit shown j v hshows hv
    obtain ⟨n, hmem⟩ := hshows.mem_script hv
    rw [script_many] at hmem
    obtain ⟨a, hlinks, hmoves, houtcome, _⟩ := chain_of_mem_repeated hmem
    exact ⟨a, chained_of_links hlinks, hmoves, houtcome⟩

end Parser

end Backtrack
