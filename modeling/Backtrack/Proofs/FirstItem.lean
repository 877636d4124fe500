-- The first of one or more repetitions. No progress is asked of it, so it may take nothing
-- where any further one would be refused. What then comes behind it begins with an earlier
-- candidate from the same offset, and a fault is sure to follow.
import Backtrack.Proofs.Guard
import Backtrack.Proofs.Offsets

namespace Backtrack

namespace Parser

variable {rules : Rules} {text : Text} {p : Parser} {i j : Int} {n : Nat} {w : Value}

/-! ## The first item and the others -/

/-- What one or more repetitions give stands for a candidate of the item and a chain behind
it that moves on. If the candidate takes nothing, an earlier one comes next. -/
theorem exists_first_of_mem_script (h : .success j w ∈ (p.many1.script rules text n i).outcomes) :
    ∃ (c : Candidate) (a : Chain),
      (p.script rules text n i).outcomes[c.place]? = some (.success c.stop c.value) ∧
      Chain.Links (fun k => (p.script rules text n k).outcomes) c.stop a ∧ Chain.Moves c.stop a ∧
      .success j w = Chain.outcome i (c :: a) ∧
      (c.stop = i → ∃ d rest, a = d :: rest ∧ d.place < c.place) := by
  rw [many1, script_cons_many] at h
  obtain ⟨place, o, ho, hmem, _⟩ := Script.exists_place_of_mem_outcomes_expand h
  cases o with
  | failure index expect => cases List.mem_singleton.mp hmem
  | success k v =>
    rw [outcomes_extended] at hmem
    obtain ⟨o', ho', heq⟩ := List.mem_map.mp hmem
    cases o' with
    | failure index expect => cases heq
    | success j' w' =>
      obtain ⟨a, hlinks, hmoves, houtcome, hearlier⟩ := chain_of_mem_repeated ho'
      refine ⟨⟨place, k, v⟩, a, ho, hlinks, hmoves, ?_, fun hk => ?_⟩
      · rw [houtcome] at heq
        exact heq.symm
      · -- The candidate is one of those that the repetitions behind it begin with.
        have hagain : (p.script rules text n k).outcomes[place]? = some (.success k v) := by
          rw [show k = i from hk] at ho ⊢
          exact ho
        exact hearlier ⟨place, k, v⟩ hagain (Int.le_refl k)

/-- Where one or more repetitions come to an end, no candidate of the item takes nothing. -/
theorem ne_of_unbroken_many1 (h : (p.many1.script rules text n i).Unbroken) {c : Candidate}
    (hc : (p.script rules text n i).outcomes[c.place]? = some (.success c.stop c.value)) :
    c.stop ≠ i := by
  rintro hstop
  rw [many1, script_cons_many] at h
  have hmem := List.mem_of_getElem? hc
  have hmore := Script.unbroken_expand_single.mp ((Script.unbroken_expand.mp h).2 _ hmem)
  rw [hstop] at hmore hmem
  cases n with
  | zero => exact hmore.elim
  | succ n => exact Int.lt_irrefl i ((unbroken_repeated_succ.mp hmore).2 i c.value hmem).1

/-! ## The law of the first item -/

/-- Let no success of the item end before its start. Then each success of one or more
repetitions stands for a chain of candidates that all move on, but for the first one, which
may take nothing if the next one is an earlier candidate from the same offset. If the run
comes to its end without a fault, the first one moves on as well. -/
theorem only_a_first_item_takes_nothing
    (hkeeps : ∀ k j v, p.Yields rules text k (.success j v) → k ≤ j) (i : Int) :
    (∀ j v, p.many1.Yields rules text i (.success j v) →
      ∃ (c : Candidate) (a : Chain), p.Chained rules text i (c :: a) ∧
        .success j v = Chain.outcome i (c :: a) ∧ Chain.Moves c.stop a ∧
        (i < c.stop ∨ c.stop = i ∧ ∃ d rest, a = d :: rest ∧ d.place < c.place)) ∧
    ∀ events outcomes, p.many1.Exhausts rules text i events outcomes →
      ∀ j v, .success j v ∈ outcomes →
        ∃ a, p.Chained rules text i a ∧ .success j v = Chain.outcome i a ∧ Chain.Moves i a := by
  have hle : ∀ {n} {c : Candidate}, (p.script rules text n i).outcomes[c.place]? =
      some (.success c.stop c.value) → i ≤ c.stop :=
    fun hc => hkeeps i _ _ (yields_of_mem_script (List.mem_of_getElem? hc))
  constructor
  · intro j v h
    obtain ⟨n, hmem⟩ := h.mem_script
    obtain ⟨c, a, hc, hlinks, hmoves, houtcome, hempty⟩ := exists_first_of_mem_script hmem
    have hchained : p.Chained rules text i (c :: a) :=
      ⟨offers_iff_script.mpr ⟨n, hc⟩, chained_of_links hlinks⟩
    refine ⟨c, a, hchained, houtcome, hmoves, ?_⟩
    rcases Int.lt_or_eq_of_le (hle hc) with hlt | heq
    · exact Or.inl hlt
    · exact Or.inr ⟨heq.symm, hempty heq.symm⟩
  · intro events outcomes h j v hmem
    obtain ⟨n, hunbroken, -, rfl⟩ := exhausts_iff_holds.mp h
    obtain ⟨c, a, hc, hlinks, hmoves, houtcome, _⟩ := exists_first_of_mem_script hmem
    have hlt : i < c.stop := lt_of_le_of_ne (hle hc) (ne_of_unbroken_many1 hunbroken hc).symm
    exact ⟨c :: a, ⟨offers_iff_script.mpr ⟨n, hc⟩, chained_of_links hlinks⟩, houtcome, hlt, hmoves⟩

/-- A letter that is taken, or else only looked at. -/
def letterOrGlance : Parser := (string "a").or (string "a").peek

theorem le_of_yields_letterOrGlance (text : Text) (k j : Int) (v : Value)
    (h : letterOrGlance.Yields .empty text k (.success j v)) : k ≤ j := by
  have law := Outcome.Within.law text
  have hpeek : (string "a").peek.Keeps text (Outcome.Within text) := law.keeps_peek trivial
  have hkeeps : letterOrGlance.Keeps text (Outcome.Within text) := ⟨trivial, trivial, hpeek⟩
  obtain ⟨n, hmem⟩ := h.mem_script
  exact (law.of_mem_script (Rules.empty_all _) hkeeps hmem).1

/-- The letter is given twice, though the text has it only once: it is looked at first and
taken then. -/
theorem yields_letter_twice : letterOrGlance.many1.Yields .empty ['a'] 0
    (.success 1 (.list [.str "a", .str "a"])) := by
  have houtcomes : (letterOrGlance.many1.script .empty ['a'] 2 0).outcomes =
      [.failure 1 "string a", .failure 1 "string a", .success 1 (.list [.str "a"]),
        .failure 1 "string a", .failure 1 "string a",
        .success 1 (.list [.str "a", .str "a"])] := rfl
  exact yields_of_mem_script (n := 2) (houtcomes ▸ by simp)

theorem glance_before_a_letter :
    (∀ k j v, letterOrGlance.Yields .empty ['a'] k (.success j v) → k ≤ j) ∧
      ∃ (c : Candidate) (a : Chain), letterOrGlance.Chained .empty ['a'] 0 (c :: a) ∧
        .success 1 (.list [.str "a", .str "a"]) = Chain.outcome 0 (c :: a) ∧ Chain.Moves c.stop a ∧
        (0 < c.stop ∨ c.stop = 0 ∧ ∃ d rest, a = d :: rest ∧ d.place < c.place) :=
  ⟨le_of_yields_letterOrGlance ['a'],
    (only_a_first_item_takes_nothing (le_of_yields_letterOrGlance ['a']) 0).1 _ _ yields_letter_twice⟩

/-- Two letters cannot both have been taken from a text of one. -/
theorem letter_given_twice :
    (∀ text k j v, letterOrGlance.Yields .empty text k (.success j v) → k ≤ j) ∧
      letterOrGlance.many1.Yields .empty ['a'] 0 (.success 1 (.list [.str "a", .str "a"])) ∧
      ¬ ∃ a, letterOrGlance.Chained .empty ['a'] 0 a ∧
        .success 1 (.list [.str "a", .str "a"]) = Chain.outcome 0 a ∧ Chain.Moves 0 a := by
  refine ⟨le_of_yields_letterOrGlance, yields_letter_twice, ?_⟩
  rintro ⟨a, _, houtcome, hmoves⟩
  rw [Chain.outcome, Outcome.success.injEq, Value.list.injEq] at houtcome
  obtain ⟨hstop, hvalues⟩ := houtcome
  have hlength := congrArg List.length hvalues
  obtain ⟨c, d, rfl⟩ : ∃ c d, a = [c, d] := List.length_eq_two.mp (by simpa using hlength.symm)
  obtain ⟨hc, hd, _⟩ := hmoves
  simp only [Chain.stop] at hstop
  omega

end Parser

end Backtrack
