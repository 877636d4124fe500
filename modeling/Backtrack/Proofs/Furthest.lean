-- The laws of the failures that got furthest: they lie at the greatest offset of all, and
-- what was expected there is listed once each, in the order in which it was first
-- reported. A fold that keeps what it has found is read from its end: one more element
-- is added behind all others, or not at all.
import Backtrack.Report
import Mathlib.Data.List.Basic
import Mathlib.Data.List.Induction

namespace Backtrack.Report

/-! ## Lists without repetitions -/

theorem distinct_append (expects : List String) (e : String) :
    distinct (expects ++ [e]) =
      if e ∈ distinct expects then distinct expects else distinct expects ++ [e] := by
  unfold distinct
  rw [List.foldl_append]
  rfl

theorem mem_distinct {expects : List String} {d : String} : d ∈ distinct expects ↔ d ∈ expects := by
  induction expects using List.reverseRecOn with
  | nil => rfl
  | append_singleton expects e ih =>
    rw [distinct_append]
    by_cases he : e ∈ distinct expects
    · rw [if_pos he, ih, List.mem_append, List.mem_singleton]
      constructor
      · intro hd
        exact Or.inl hd
      · rintro (hd | rfl)
        · exact hd
        · exact ih.mp he
    · rw [if_neg he]
      simp [ih]

/-- The elements stand in the order in which each was found first. -/
theorem pairwise_distinct (expects : List String) :
    (distinct expects).Pairwise fun d d' => expects.idxOf d < expects.idxOf d' := by
  induction expects using List.reverseRecOn with
  | nil => exact .nil
  | append_singleton expects e ih =>
    -- What was found before is found at the same place, and before the new end.
    have hold : ∀ d ∈ distinct expects, (expects ++ [e]).idxOf d = expects.idxOf d :=
      fun d hd => List.idxOf_append_of_mem (mem_distinct.mp hd)
    have hsame : (distinct expects).Pairwise fun d d' =>
        (expects ++ [e]).idxOf d < (expects ++ [e]).idxOf d' := by
      refine ih.imp_of_mem fun {d d'} hd hd' hlt => ?_
      rw [hold d hd, hold d' hd']
      exact hlt
    rw [distinct_append]
    by_cases he : e ∈ distinct expects
    · rw [if_pos he]
      exact hsame
    · rw [if_neg he]
      refine List.pairwise_append.mpr ⟨hsame, List.pairwise_singleton _ _, fun d hd d' hd' => ?_⟩
      rw [List.mem_singleton] at hd'
      subst hd'
      have hnew : d' ∉ expects := fun h => he (mem_distinct.mpr h)
      have hlt := List.idxOf_lt_length_of_mem (mem_distinct.mp hd)
      rw [hold d hd, List.idxOf_append_of_notMem hnew]
      omega

/-! ## The greatest offset -/

theorem le_foldl_max (errors : List Expected) (start : Int) :
    start ≤ errors.foldl (fun m e => max m e.index) start ∧
      ∀ e ∈ errors, e.index ≤ errors.foldl (fun m e => max m e.index) start := by
  induction errors generalizing start with
  | nil => simp
  | cons e errors ih =>
    obtain ⟨hstart, hall⟩ := ih (max start e.index)
    rw [List.foldl_cons]
    refine ⟨by omega, ?_⟩
    intro e' he'
    rcases List.mem_cons.mp he' with rfl | he'
    · omega
    · exact hall e' he'

theorem foldl_max_mem (errors : List Expected) (start : Int) :
    errors.foldl (fun m e => max m e.index) start = start ∨
      ∃ e ∈ errors, e.index = errors.foldl (fun m e => max m e.index) start := by
  induction errors generalizing start with
  | nil => simp
  | cons e errors ih =>
    rw [List.foldl_cons]
    rcases ih (max start e.index) with h | ⟨e', he', h⟩
    · rw [h]
      rcases Int.le_total start e.index with hle | hle
      · exact Or.inr ⟨e, List.mem_cons_self, by omega⟩
      · exact Or.inl (by omega)
    · exact Or.inr ⟨e', List.mem_cons_of_mem e he', h⟩

/-! ## The failures that got furthest -/

variable {errors : List Expected}

/-- No failure lies behind the offset of those that got furthest. -/
theorem index_le_furthest {e : Expected} (he : e ∈ errors) : e.index ≤ (furthest errors).1 := by
  cases errors with
  | nil => cases he
  | cons first rest =>
    obtain ⟨hfirst, hrest⟩ := le_foldl_max rest first.index
    rcases List.mem_cons.mp he with rfl | he
    · exact hfirst
    · exact hrest e he

/-- The offset of the failures that got furthest is that of a failure. -/
theorem exists_index_eq_furthest (h : errors ≠ []) : ∃ e ∈ errors, e.index = (furthest errors).1 := by
  cases errors with
  | nil => exact (h rfl).elim
  | cons first rest =>
    rcases foldl_max_mem rest first.index with h | ⟨e, he, h⟩
    · exact ⟨first, List.mem_cons_self, h.symm⟩
    · exact ⟨e, List.mem_cons_of_mem first he, h⟩

/-- What was expected by the failures at an offset. -/
def expectedAt (index : Int) (errors : List Expected) : List String :=
  (errors.filter fun e => e.index == index).map (·.expect)

theorem furthest_snd (errors : List Expected) :
    (furthest errors).2 = distinct (expectedAt (furthest errors).1 errors) := by
  cases errors <;> rfl

theorem mem_expectedAt {index : Int} {d : String} :
    d ∈ expectedAt index errors ↔ ⟨index, d⟩ ∈ errors := by
  unfold expectedAt
  constructor
  · intro hd
    obtain ⟨e, he, rfl⟩ := List.mem_map.mp hd
    obtain ⟨he, hindex⟩ := List.mem_filter.mp he
    rw [← beq_iff_eq.mp hindex]
    exact he
  · intro he
    exact List.mem_map.mpr ⟨_, List.mem_filter.mpr ⟨he, beq_self_eq_true index⟩, rfl⟩

/-- The failures at an offset stand in the order of all failures. -/
theorem idxOf_lt_of_expectedAt {index : Int} {d d' : String}
    (hlt : (expectedAt index errors).idxOf d < (expectedAt index errors).idxOf d') :
    errors.idxOf ⟨index, d⟩ < errors.idxOf ⟨index, d'⟩ := by
  induction errors with
  | nil => cases hlt
  | cons e rest ih =>
    by_cases hindex : e.index = index
    · have hcons : expectedAt index (e :: rest) = e.expect :: expectedAt index rest := by
        simp [expectedAt, hindex]
      rw [hcons] at hlt
      have hd' : e.expect ≠ d' := by
        intro h
        rw [List.idxOf_cons_eq _ h] at hlt
        exact Nat.not_lt_zero _ hlt
      have he' : e ≠ ⟨index, d'⟩ := fun h => hd' (congrArg Expected.expect h)
      rw [List.idxOf_cons_ne _ he']
      by_cases hd : e.expect = d
      · have he : e = ⟨index, d⟩ := by rw [← hindex, ← hd]
        rw [List.idxOf_cons_eq rest he]
        omega
      · have he : e ≠ ⟨index, d⟩ := fun h => hd (congrArg Expected.expect h)
        rw [List.idxOf_cons_ne _ hd, List.idxOf_cons_ne _ hd'] at hlt
        rw [List.idxOf_cons_ne _ he]
        have hrest := ih (by omega)
        omega
    · have hcons : expectedAt index (e :: rest) = expectedAt index rest := by
        simp [expectedAt, hindex]
      have hne : ∀ d, e ≠ ⟨index, d⟩ := fun d h => hindex (congrArg Expected.index h)
      rw [hcons] at hlt
      rw [List.idxOf_cons_ne _ (hne d), List.idxOf_cons_ne _ (hne d')]
      have hrest := ih hlt
      omega

/-- What was expected furthest is what the failures at that offset expected. -/
theorem mem_furthest {d : String} :
    d ∈ (furthest errors).2 ↔ ⟨(furthest errors).1, d⟩ ∈ errors := by
  rw [furthest_snd, mem_distinct, mem_expectedAt]

/-- What was expected furthest stands in the order in which it was first reported. -/
theorem pairwise_furthest (errors : List Expected) :
    (furthest errors).2.Pairwise fun d d' =>
      errors.idxOf ⟨(furthest errors).1, d⟩ < errors.idxOf ⟨(furthest errors).1, d'⟩ := by
  rw [furthest_snd]
  exact (pairwise_distinct _).imp idxOf_lt_of_expectedAt

theorem nodup_furthest (errors : List Expected) : (furthest errors).2.Nodup := by
  refine (pairwise_furthest errors).imp fun {d d'} hlt hsame => ?_
  rw [hsame] at hlt
  exact Nat.lt_irrefl _ hlt

/-- Which failures there are decides how far they got and what was expected there, neither
their order nor how often each of them is reported. -/
theorem furthest_congr {errors' : List Expected} (h : ∀ e, e ∈ errors ↔ e ∈ errors') :
    (furthest errors).1 = (furthest errors').1 ∧
      ∀ d, d ∈ (furthest errors).2 ↔ d ∈ (furthest errors').2 := by
  have hindex : (furthest errors).1 = (furthest errors').1 := by
    by_cases hnone : errors = []
    · have hnone' : errors' = [] := List.eq_nil_iff_forall_not_mem.mpr fun e he => by
        have hmem := (h e).mpr he
        rw [hnone] at hmem
        cases hmem
      rw [hnone, hnone']
    · -- A failure that got furthest in one list is in the other, so neither goes further.
      obtain ⟨e, he, heq⟩ := exists_index_eq_furthest hnone
      have hsome : errors' ≠ [] := List.ne_nil_of_mem ((h e).mp he)
      obtain ⟨e', he', heq'⟩ := exists_index_eq_furthest hsome
      have hle := index_le_furthest ((h e).mp he)
      have hle' := index_le_furthest ((h e').mpr he')
      omega
  refine ⟨hindex, fun d => ?_⟩
  rw [mem_furthest, mem_furthest, hindex]
  exact h _

end Backtrack.Report
