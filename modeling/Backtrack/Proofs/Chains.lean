-- Chains of candidates. Where every offset has a stream of outcomes, a chain takes one
-- success after another, each from the stream at the end of the one before it. Chains
-- have an order of their own, in which extensions come first, and all chains of fewer
-- candidates than a number are written down here in that order.
import Backtrack.Outcome
import Mathlib.Data.List.Basic
import Mathlib.Data.Set.Finite.Basic

namespace Backtrack

/-! ## Candidates -/

/-- A success among outcomes, with its place in their order. Two candidates may have the
same end and the same value. -/
structure Candidate where
  place : Nat
  stop : Int
  value : Value

namespace Outcome

/-- The candidate that an outcome is at a place, if it is one. -/
def candidate? (place : Nat) : Outcome → Option Candidate
  | success stop value => some ⟨place, stop, value⟩
  | failure _ _ => none

/-- The successes among outcomes in their order. -/
def successes (outcomes : List Outcome) : List Outcome := outcomes.filter isSuccess

/-- The failures among outcomes in their order. -/
def failures (outcomes : List Outcome) : List Outcome := outcomes.filter fun o => !o.isSuccess

/-- The successes among outcomes with their places. -/
def candidates (outcomes : List Outcome) : List Candidate :=
  outcomes.zipIdx.filterMap fun x => x.1.candidate? x.2

theorem successes_append (outcomes later : List Outcome) :
    successes (outcomes ++ later) = successes outcomes ++ successes later :=
  List.filter_append ..

theorem failures_append (outcomes later : List Outcome) :
    failures (outcomes ++ later) = failures outcomes ++ failures later :=
  List.filter_append ..

theorem success_mem_successes {outcomes : List Outcome} {stop : Int} {value : Value} :
    success stop value ∈ successes outcomes ↔ success stop value ∈ outcomes :=
  List.mem_filter.trans (and_iff_left rfl)

theorem successes_map {g : Outcome → Outcome} (hg : ∀ o, (g o).isSuccess = o.isSuccess)
    (outcomes : List Outcome) : successes (outcomes.map g) = (successes outcomes).map g := by
  unfold successes
  rw [List.filter_map]
  congr 2
  funext o
  exact hg o

/-- Replacing successes by successes leaves the failures as they are. -/
theorem failures_map {g : Outcome → Outcome} (hg : ∀ o, (g o).isSuccess = o.isSuccess)
    (hfailure : ∀ index expect, g (failure index expect) = failure index expect)
    (outcomes : List Outcome) : failures (outcomes.map g) = failures outcomes := by
  unfold failures
  induction outcomes with
  | nil => rfl
  | cons o rest ih =>
    rw [List.map_cons, List.filter_cons, List.filter_cons, hg, ih]
    cases o with
    | success index value => rfl
    | failure index expect => rw [hfailure]

theorem candidate?_eq_some {o : Outcome} {place : Nat} {c : Candidate} :
    o.candidate? place = some c ↔ place = c.place ∧ o = success c.stop c.value := by
  obtain ⟨place', stop, value⟩ := c
  cases o with
  | failure index expect => simp [candidate?]
  | success index value' => simp [candidate?]

theorem mem_candidates {outcomes : List Outcome} {c : Candidate} :
    c ∈ candidates outcomes ↔ outcomes[c.place]? = some (success c.stop c.value) := by
  rw [candidates, List.mem_filterMap]
  constructor
  · rintro ⟨⟨o, place⟩, hmem, hc⟩
    obtain ⟨rfl, rfl⟩ := candidate?_eq_some.mp hc
    exact List.mem_zipIdx_iff_getElem?.mp hmem
  · intro h
    exact ⟨(_, c.place), List.mem_zipIdx_iff_getElem?.mpr h, candidate?_eq_some.mpr ⟨rfl, rfl⟩⟩

/-- Candidates stand in the order of their places. -/
theorem candidates_pairwise (outcomes : List Outcome) :
    (candidates outcomes).Pairwise fun c d => c.place < d.place := by
  have hplaces : outcomes.zipIdx.Pairwise fun x y => x.2 < y.2 := by
    rw [← List.pairwise_map (f := Prod.snd), List.zipIdx_map_snd]
    exact List.pairwise_lt_range'
  refine hplaces.filterMap _ fun x y hxy c hc d hd => ?_
  obtain ⟨hx, _⟩ := candidate?_eq_some.mp hc
  obtain ⟨hy, _⟩ := candidate?_eq_some.mp hd
  rw [← hx, ← hy]
  exact hxy

/-- What failures add nothing to is added by the candidates. -/
theorem flatMap_candidates {β : Type} {g : Outcome → List β} (outcomes : List Outcome)
    (hg : ∀ index expect, g (failure index expect) = []) :
    outcomes.flatMap g = (candidates outcomes).flatMap fun c => g (success c.stop c.value) := by
  calc outcomes.flatMap g
      = (outcomes.zipIdx.map Prod.fst).flatMap g := by rw [List.zipIdx_map_fst]
    _ = outcomes.zipIdx.flatMap fun x => g x.1 := by rw [List.flatMap_map]
    _ = (candidates outcomes).flatMap fun c => g (success c.stop c.value) := by
      rw [candidates, List.filterMap_eq_flatMap_toList, List.flatMap_assoc]
      refine List.flatMap_congr fun x _ => ?_
      obtain ⟨o, place⟩ := x
      cases o with
      | success index value => simp [candidate?]
      | failure index expect => simp [candidate?, hg]

end Outcome

/-! ## Chains -/

/-- Candidates one after another. -/
abbrev Chain := List Candidate

namespace Chain

/-- The end of a chain from an offset. A chain without candidates ends where it starts. -/
def stop : Int → Chain → Int
  | i, [] => i
  | _, c :: rest => stop c.stop rest

/-- The success that a chain from an offset stands for. -/
def outcome (i : Int) (a : Chain) : Outcome := .success (stop i a) (.list (a.map Candidate.value))

/-- The first candidate is taken from the stream at the offset, and each other one from
the stream at the end of the one before it. -/
def Links (stream : Int → List Outcome) : Int → Chain → Prop
  | _, [] => True
  | i, c :: rest => (stream i)[c.place]? = some (.success c.stop c.value) ∧ Links stream c.stop rest

/-- A chain precedes another if it extends it, or if at the first place where they differ
its candidate is the earlier one. -/
def Precedes (a b : Chain) : Prop :=
  (∃ more, more ≠ [] ∧ a = b ++ more) ∨
    ∃ common c d a' b', a = common ++ c :: a' ∧ b = common ++ d :: b' ∧ c.place < d.place

variable {stream : Int → List Outcome} {a b : Chain} {c d : Candidate}

/-! ## The order -/

theorem precedes_nil (c : Candidate) (a : Chain) : Precedes (c :: a) [] :=
  Or.inl ⟨c :: a, List.cons_ne_nil c a, rfl⟩

theorem precedes_of_place (h : c.place < d.place) (a b : Chain) : Precedes (c :: a) (d :: b) :=
  Or.inr ⟨[], c, d, a, b, rfl, rfl, h⟩

theorem Precedes.cons (h : Precedes a b) (c : Candidate) : Precedes (c :: a) (c :: b) := by
  rcases h with ⟨more, hmore, rfl⟩ | ⟨common, d, d', a', b', rfl, rfl, hplace⟩
  · exact Or.inl ⟨more, hmore, rfl⟩
  · exact Or.inr ⟨c :: common, d, d', a', b', rfl, rfl, hplace⟩

theorem not_nil_precedes : ¬ Precedes [] a := by
  rintro (⟨more, hmore, h⟩ | ⟨common, c, d, a', b', h, _, _⟩)
  · exact hmore (List.append_eq_nil_iff.mp h.symm).2
  · simp at h

theorem precedes_cons_cons :
    Precedes (c :: a) (d :: b) ↔ c.place < d.place ∨ c = d ∧ Precedes a b := by
  constructor
  · rintro (⟨more, hmore, h⟩ | ⟨common, c', d', a', b', ha, hb, hplace⟩)
    · rw [List.cons_append, List.cons.injEq] at h
      exact Or.inr ⟨h.1, Or.inl ⟨more, hmore, h.2⟩⟩
    · cases common with
      | nil =>
        cases ha
        cases hb
        exact Or.inl hplace
      | cons e common =>
        cases ha
        cases hb
        exact Or.inr ⟨rfl, Or.inr ⟨common, c', d', a', b', rfl, rfl, hplace⟩⟩
  · rintro (hplace | ⟨rfl, h⟩)
    · exact precedes_of_place hplace a b
    · exact h.cons c

theorem Precedes.asymm (h : Precedes a b) : ¬ Precedes b a := by
  induction a generalizing b with
  | nil => exact (not_nil_precedes h).elim
  | cons c a ih =>
    cases b with
    | nil => exact not_nil_precedes
    | cons d b =>
      intro hback
      -- The first candidates settle it, unless they are the same.
      rcases precedes_cons_cons.mp h with hplace | ⟨rfl, htail⟩
      · rcases precedes_cons_cons.mp hback with hplace' | ⟨rfl, _⟩
        · exact Nat.lt_asymm hplace hplace'
        · exact Nat.lt_irrefl _ hplace
      · rcases precedes_cons_cons.mp hback with hplace | ⟨_, hback⟩
        · exact Nat.lt_irrefl _ hplace
        · exact ih htail hback

theorem not_precedes_self (a : Chain) : ¬ Precedes a a := fun h => h.asymm h

/-- Where chains stand in their order, that order is the order of their positions. -/
theorem lt_iff_precedes {chains : List Chain} (h : chains.Pairwise Precedes) (x y : Nat)
    (hx : x < chains.length) (hy : y < chains.length) :
    x < y ↔ Precedes chains[x] chains[y] := by
  have hordered := List.pairwise_iff_getElem.mp h
  constructor
  · intro hlt
    exact hordered x y hx hy hlt
  · intro hp
    rcases Nat.lt_trichotomy x y with hlt | rfl | hgt
    · exact hlt
    · exact (not_precedes_self _ hp).elim
    · exact (hp.asymm (hordered y x hy hx hgt)).elim

/-! ## All chains -/

/-- All chains from an offset with fewer candidates than the number. -/
def all (stream : Int → List Outcome) : Nat → Int → List Chain
  | 0, _ => []
  | n + 1, i =>
    ((Outcome.candidates (stream i)).flatMap fun c => (all stream n c.stop).map (c :: ·)) ++ [[]]

theorem mem_all {n : Nat} {i : Int} : a ∈ all stream n i ↔ Links stream i a ∧ a.length < n := by
  induction n generalizing i a with
  | zero => simp [all]
  | succ n ih =>
    cases a with
    | nil => simp [all, Links]
    | cons c a =>
      have hmem : c :: a ∈ all stream (n + 1) i ↔
          c ∈ Outcome.candidates (stream i) ∧ a ∈ all stream n c.stop := by
        simp only [all, List.mem_append, List.mem_flatMap, List.mem_map, List.mem_singleton,
          reduceCtorEq, or_false]
        constructor
        · rintro ⟨c', hc', a', ha', h⟩
          cases h
          exact ⟨hc', ha'⟩
        · rintro ⟨hc, ha⟩
          exact ⟨c, hc, a, ha, rfl⟩
      rw [hmem, ih, Outcome.mem_candidates, List.length_cons, Nat.add_lt_add_iff_right, Links,
        and_assoc]

/-- Chains put behind the candidates of a stream stand in their order if those behind each
candidate do. -/
theorem pairwise_behind {outcomes : List Outcome} {chains : Candidate → List Chain}
    (h : ∀ c, (chains c).Pairwise Precedes) :
    ((Outcome.candidates outcomes).flatMap fun c => (chains c).map (c :: ·)).Pairwise Precedes := by
  rw [List.pairwise_flatMap]
  constructor
  · intro c _
    rw [List.pairwise_map]
    exact (h c).imp fun h => h.cons c
  · refine (Outcome.candidates_pairwise outcomes).imp fun hplace a ha b hb => ?_
    obtain ⟨a', _, rfl⟩ := List.mem_map.mp ha
    obtain ⟨b', _, rfl⟩ := List.mem_map.mp hb
    exact precedes_of_place hplace a' b'

/-- The chains are written down in their order. -/
theorem all_pairwise (n : Nat) (i : Int) : (all stream n i).Pairwise Precedes := by
  induction n generalizing i with
  | zero => exact List.Pairwise.nil
  | succ n ih =>
    rw [all, List.pairwise_append]
    refine ⟨pairwise_behind fun c => ih c.stop, List.pairwise_singleton _ _, ?_⟩
    intro a ha b hb
    obtain ⟨c, _, ha⟩ := List.mem_flatMap.mp ha
    obtain ⟨a', _, rfl⟩ := List.mem_map.mp ha
    rw [List.mem_singleton.mp hb]
    exact precedes_nil c a'

theorem nodup_of_pairwise {chains : List Chain} (h : chains.Pairwise Precedes) : chains.Nodup := by
  refine h.imp fun h heq => ?_
  subst heq
  exact not_precedes_self _ h

theorem all_nodup (n : Nat) (i : Int) : (all stream n i).Nodup := nodup_of_pairwise (all_pairwise n i)

/-- What the chains add at their ends is added by the chains behind each candidate, and
by the chain without any. -/
theorem flatMap_all_succ {β : Type} (g : Int → List β) (n : Nat) (i : Int) :
    (all stream (n + 1) i).flatMap (fun a => g (stop i a)) =
      ((Outcome.candidates (stream i)).flatMap fun c =>
        (all stream n c.stop).flatMap fun a => g (stop c.stop a)) ++ g i := by
  simp only [all, List.flatMap_append, List.flatMap_assoc, List.flatMap_map, List.flatMap_singleton]
  rfl

/-! ## Finitely many chains -/

/-- Chains that only move on, and never beyond an offset, are bounded in length. -/
theorem length_le_of_moving {i limit : Int} (ha : Links stream i a)
    (hmoves : ∀ b, Links stream i b → ∀ j v, .success j v ∈ stream (stop i b) →
      stop i b < j ∧ j ≤ limit) : (a.length : Int) ≤ max 0 (limit - i) := by
  induction a generalizing i with
  | nil => exact Int.le_max_left 0 _
  | cons c a ih =>
    obtain ⟨hc, ha⟩ := ha
    have hrest := ih ha fun b hb => hmoves (c :: b) ⟨hc, hb⟩
    obtain ⟨hlt, hle⟩ := hmoves [] trivial c.stop c.value (List.mem_of_getElem? hc)
    rw [stop] at hlt
    rw [List.length_cons]
    omega

/-- There are only finitely many chains that only move on, and never beyond an offset. -/
theorem finite_of_moving {i limit : Int}
    (hmoves : ∀ b, Links stream i b → ∀ j v, .success j v ∈ stream (stop i b) →
      stop i b < j ∧ j ≤ limit) : Set.Finite {a | Links stream i a} := by
  refine (all stream ((max 0 (limit - i)).toNat + 1) i).finite_toSet.subset fun a ha => ?_
  have hlength := length_le_of_moving ha hmoves
  exact mem_all.mpr ⟨ha, by omega⟩

end Chain

end Backtrack
