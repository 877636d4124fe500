-- Routes: the chains of candidates that a plan allows, each of which leads from one place
-- to another. Where a traversal meets no fault, its successes are what is given at the ends
-- of all routes, in the order of chains. That order is the one in which scripts are read
-- depth first, so an induction on the depth is enough.
import Backtrack.Proofs.Chains
import Backtrack.Proofs.Traversal

namespace Backtrack

/-! ## Candidates of runs -/

namespace Parser

/-- Read far enough from the offset, the parser gives the candidate at its place. -/
def Offers (rules : Rules) (text : Text) (p : Parser) (i : Int) (c : Candidate) : Prop :=
  ∃ limit shown, p.Shows rules text i limit shown ∧
    shown.outcomes[c.place]? = some (.success c.stop c.value)

variable {rules : Rules} {text : Text} {p : Parser} {i : Int} {c : Candidate}

theorem offers_iff_script : p.Offers rules text i c ↔
    ∃ n, (p.script rules text n i).outcomes[c.place]? = some (.success c.stop c.value) := by
  constructor
  · rintro ⟨limit, shown, hshows, hc⟩
    have hsome : shown.outcomes ≠ [] := by
      rintro h
      rw [h] at hc
      cases hc
    obtain ⟨n, k, htake⟩ := hshows.exists_take_script (Or.inr hsome)
    obtain ⟨later, hlater⟩ := Script.outcomes_prefix_of_take htake
    refine ⟨n, ?_⟩
    rw [← hlater, List.getElem?_append_left (List.getElem?_eq_some_iff.mp hc).1]
    exact hc
  · rintro ⟨n, hc⟩
    obtain ⟨shown, htake, hshown⟩ := Script.take_of_getElem? hc
    exact ⟨_, shown, shows_of_take_script htake, hshown⟩

/-- What is known to its end holds all that is ever offered. -/
theorem offers_iff_of_whole {n : Nat} (h : (p.script rules text n i).Whole) :
    p.Offers rules text i c ↔
      (p.script rules text n i).outcomes[c.place]? = some (.success c.stop c.value) := by
  rw [offers_iff_script]
  constructor
  · rintro ⟨m, hm⟩
    obtain ⟨later, hlater⟩ := Script.outcomes_prefix_of_le (script_le (Nat.le_max_right n m) p i)
    rw [h.eq_of_le (script_le (Nat.le_max_left n m) p i), ← hlater,
      List.getElem?_append_left (List.getElem?_eq_some_iff.mp hm).1]
    exact hm
  · intro hc
    exact ⟨n, hc⟩

end Parser

/-! ## Routes -/

namespace Plan

variable {Place : Type} (plan : Plan Place) (stream : Place → Script)

/-- The place where a chain arrives. -/
def arrive : Place → Chain → Place
  | place, [] => place
  | place, c :: rest => arrive (plan.behind place c.stop c.value) rest

/-- Each candidate of the chain is taken from the stream at the place where those before it
arrive. -/
def Follows : Place → Chain → Prop
  | _, [] => True
  | place, c :: rest => (stream place).outcomes[c.place]? = some (.success c.stop c.value) ∧
      Follows (plan.behind place c.stop c.value) rest

/-- The chains from a place with fewer candidates than the number, where something is given
at the end. -/
def routes : Nat → Place → List Chain
  | 0, _ => []
  | n + 1, place =>
    ((Outcome.candidates (stream place).outcomes).flatMap fun c =>
      (routes n (plan.behind place c.stop c.value)).map (c :: ·)) ++
    (plan.closing place).toList.map fun _ => []

/-- What is given at the end of a chain. -/
def givenBehind (place : Place) (a : Chain) : Option Outcome := plan.closing (plan.arrive place a)

variable {plan stream} {place : Place} {further : Place → Script} {rest : Script} {n : Nat}
  {a : Chain}

/-! ## Traversals without a fault -/

/-- Nothing but a success that does not get past where it has to is refused. -/
theorem unbroken_arrival_success {j : Int} {v : Value} :
    (plan.arrival further place (.success j v)).Unbroken ↔
      (∀ k, plan.floor place = some k → k < j) ∧ (further (plan.behind place j v)).Unbroken := by
  rw [arrival]
  cases plan.floor place with
  | none => simp
  | some k =>
    simp only [Option.some.injEq, forall_eq']
    by_cases hj : j ≤ k
    · rw [if_pos hj]
      exact iff_of_false id fun h => absurd h.1 (Int.not_lt.mpr hj)
    · rw [if_neg hj]
      exact (and_iff_right (Int.not_le.mp hj)).symm

theorem unbroken_onward : (plan.onward further place rest).Unbroken ↔ rest.Unbroken ∧
    ∀ j v, .success j v ∈ rest.outcomes →
      (∀ k, plan.floor place = some k → k < j) ∧ (further (plan.behind place j v)).Unbroken := by
  rw [onward, Script.unbroken_append, Script.unbroken_expand]
  refine (and_iff_left (Script.unbroken_ofOutcomes _)).trans (and_congr_right fun _ => ?_)
  constructor
  · intro h j v hv
    exact unbroken_arrival_success.mp (h _ hv)
  · intro h o ho
    cases o with
    | failure index expect => trivial
    | success j v => exact unbroken_arrival_success.mpr (h j v ho)

/-- A traversal without a fault is one behind each candidate of its first stream. -/
theorem unbroken_tour_behind (h : (plan.tour stream (n + 1) place).Unbroken) {c : Candidate}
    (hc : (stream place).outcomes[c.place]? = some (.success c.stop c.value)) :
    (plan.tour stream n (plan.behind place c.stop c.value)).Unbroken :=
  ((unbroken_onward.mp h).2 _ _ (List.mem_of_getElem? hc)).2

/-! ## What is given -/

/-- The routes are the chains at whose ends something is given. -/
theorem mem_routes (h : (plan.tour stream n place).Unbroken) : a ∈ plan.routes stream n place ↔
    plan.Follows stream place a ∧ (plan.givenBehind place a).isSome := by
  induction n generalizing place a with
  | zero => exact h.elim
  | succ n ih =>
    cases a with
    | nil =>
      simp only [routes, List.mem_append, List.mem_flatMap, List.mem_map, reduceCtorEq, and_false,
        exists_false, false_or, and_true, Follows, true_and, givenBehind, arrive]
      cases plan.closing place <;> simp
    | cons c a =>
      have hmem : c :: a ∈ plan.routes stream (n + 1) place ↔
          c ∈ Outcome.candidates (stream place).outcomes ∧
            a ∈ plan.routes stream n (plan.behind place c.stop c.value) := by
        simp only [routes, List.mem_append, List.mem_flatMap, List.mem_map, reduceCtorEq,
          and_false, exists_false, or_false]
        constructor
        · rintro ⟨c', hc', a', ha', heq⟩
          cases heq
          exact ⟨hc', ha'⟩
        · rintro ⟨hc, ha⟩
          exact ⟨c, hc, a, ha, rfl⟩
      rw [hmem, Outcome.mem_candidates, Follows, and_assoc]
      exact and_congr_right fun hc => ih (unbroken_tour_behind h hc)

/-- Routes are written down in the order of chains. -/
theorem routes_pairwise (n : Nat) (place : Place) :
    (plan.routes stream n place).Pairwise Chain.Precedes := by
  induction n generalizing place with
  | zero => exact List.Pairwise.nil
  | succ n ih =>
    refine List.pairwise_append.mpr ⟨?_, ?_, fun a ha b hb => ?_⟩
    · exact Chain.pairwise_behind fun c => ih (plan.behind place c.stop c.value)
    · cases plan.closing place with
      | none => exact List.Pairwise.nil
      | some o => exact List.pairwise_singleton _ _
    · obtain ⟨c, _, ha⟩ := List.mem_flatMap.mp ha
      obtain ⟨a', _, rfl⟩ := List.mem_map.mp ha
      obtain ⟨_, _, rfl⟩ := List.mem_map.mp hb
      exact Chain.precedes_nil c a'

/-- A traversal without a fault gives, as its successes, what is given at the ends of the
routes. -/
theorem successes_tour (hclosing : ∀ place o, plan.closing place = some o → o.isSuccess)
    (h : (plan.tour stream n place).Unbroken) :
    Outcome.successes (plan.tour stream n place).outcomes =
      (plan.routes stream n place).filterMap (plan.givenBehind place) := by
  induction n generalizing place with
  | zero => exact h.elim
  | succ n ih =>
    have hexpand : ((stream place).expand (plan.arrival (plan.tour stream n) place)).Unbroken :=
      (Script.unbroken_append.mp h).1
    have hbehind : ∀ c ∈ Outcome.candidates (stream place).outcomes,
        Outcome.successes (plan.arrival (plan.tour stream n) place (.success c.stop c.value)).outcomes =
          ((plan.routes stream n (plan.behind place c.stop c.value)).map (c :: ·)).filterMap
            (plan.givenBehind place) := by
      intro c hc
      have hc := Outcome.mem_candidates.mp hc
      have hgood := (Script.unbroken_expand.mp hexpand).2 _ (List.mem_of_getElem? hc)
      rw [arrival_advancing (unbroken_arrival_success.mp hgood).1, ih (unbroken_tour_behind h hc),
        List.filterMap_map]
      rfl
    have hclose : Outcome.successes (Script.ofOutcomes (plan.closing place).toList).outcomes =
        ((plan.closing place).toList.map fun _ => []).filterMap (plan.givenBehind place) := by
      rw [Script.outcomes_ofOutcomes]
      cases ho : plan.closing place with
      | none => rfl
      | some o => simp [Outcome.successes, hclosing place o ho, givenBehind, arrive, ho]
    rw [tour, onward, Script.outcomes_append hexpand, Script.outcomes_expand hexpand]
    unfold Outcome.successes at hbehind hclose ⊢
    rw [List.filter_append, List.filter_flatMap, Outcome.flatMap_candidates _ fun _ _ => rfl, hclose,
      routes, List.filterMap_append, List.filterMap_flatMap, List.flatMap_congr hbehind]

/-! ## Routes of parsers -/

/-- Each candidate of the chain is offered by the parser at the place where those before it
arrive. -/
def Offers (plan : Plan Place) (rules : Rules) (text : Text) : Place → Chain → Prop
  | _, [] => True
  | place, c :: rest => (plan.parser place).Offers rules text (plan.start place) c ∧
      Offers plan rules text (plan.behind place c.stop c.value) rest

variable {rules : Rules} {text : Text} {m : Nat}

theorem follows_iff_offers (h : (plan.tour (plan.stream rules text m) n place).Unbroken) :
    plan.Follows (plan.stream rules text m) place a ↔ plan.Offers rules text place a := by
  induction a generalizing n place with
  | nil => exact Iff.rfl
  | cons c a ih =>
    cases n with
    | zero => exact h.elim
    | succ n =>
      have hstream : (plan.stream rules text m place).Unbroken := (unbroken_onward.mp h).1
      refine (and_congr_right fun hc => ih (unbroken_tour_behind h hc)).trans
        (and_congr_left fun _ => ?_)
      exact (Parser.offers_iff_of_whole hstream.whole).symm

/-- Read to its end without a fault, a parser whose script is told by a plan gives, as its
successes, what is given at the ends of all routes, each of which is taken once. -/
theorem exists_routes_of_exhausts {p : Parser} {i : Int} {events : List Event}
    {outcomes : List Outcome} (depth : Nat → Nat)
    (hscript : ∀ n, p.script rules text n i = plan.tour (plan.stream rules text n) (depth n) place)
    (hclosing : ∀ place o, plan.closing place = some o → o.isSuccess)
    (h : p.Exhausts rules text i events outcomes) :
    ∃ routes : List Chain,
      (∀ a, a ∈ routes ↔ plan.Offers rules text place a ∧ (plan.givenBehind place a).isSome) ∧
      routes.Pairwise Chain.Precedes ∧
      Outcome.successes outcomes = routes.filterMap (plan.givenBehind place) := by
  obtain ⟨n, hholds⟩ := Parser.exhausts_iff_holds.mp h
  rw [hscript] at hholds
  refine ⟨plan.routes (plan.stream rules text n) (depth n) place, fun a => ?_, routes_pairwise _ _, ?_⟩
  · rw [mem_routes hholds.unbroken, follows_iff_offers hholds.unbroken]
  · rw [← hholds.outcomes_eq]
    exact successes_tour hclosing hholds.unbroken

end Plan

end Backtrack
