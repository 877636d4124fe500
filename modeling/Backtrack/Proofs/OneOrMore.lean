-- Any number of repetitions beside one or more of them. The guard asks every item of the
-- former for progress, and the first item of the latter for none. But behind an item that
-- takes nothing everything is read once more from the same offset, and comes to the fault
-- that the guard would have met. So the two come to the same end, and if that is no fault,
-- all that one of them gives beyond the other is the list without items.
import Backtrack.Proofs.Ends
import Backtrack.Proofs.FirstItem

namespace Backtrack

namespace Parser

variable {rules : Rules} {text : Text} {p : Parser} {i j : Int} {n : Nat} {v : Value} {fault : Fault}
  {events : List Event} {outcomes : List Outcome} {further : Int → Script} {s : Script}

/-! ## One item with the guard and without it -/

/-- A success that moves on goes through the guard. -/
theorem guarded_of_lt (h : i < j) :
    guarded i further (.success j v) = extended further (.success j v) :=
  if_neg (Int.not_le.mpr h)

/-- Where all items move on, the guard changes nothing. -/
theorem expand_guarded (hmoves : ∀ j v, .success j v ∈ s.outcomes → i < j) :
    s.expand (guarded i further) = s.expand (extended further) := by
  apply Script.expand_congr
  intro o ho
  cases o with
  | failure index expect => rfl
  | success j v => exact guarded_of_lt (hmoves j v ho)

/-- What is met behind the guard is met without it, if it is met again at the start. -/
theorem endsIn_extended (hkeeps : ∀ j v, .success j v ∈ s.outcomes → i ≤ j)
    (hagain : (further i).EndsIn fault) (h : (s.expand (guarded i further)).EndsIn fault) :
    (s.expand (extended further)).EndsIn fault := by
  induction s with
  | done | unread => exact h.elim
  | raised => exact h
  | event e rest ih => exact ih hkeeps h
  | outcome o rest ih =>
    have hrest := ih fun j v hv => hkeeps j v (List.mem_cons_of_mem o hv)
    rw [Script.expand, Script.endsIn_append_iff] at h ⊢
    cases o with
    | failure index expect => exact h.imp_right fun h => ⟨h.1, hrest h.2⟩
    | success j v =>
      rcases Int.lt_or_eq_of_le (hkeeps j v List.mem_cons_self) with hlt | rfl
      · rw [guarded_of_lt hlt] at h
        exact h.imp_right fun h => ⟨h.1, hrest h.2⟩
      · -- The item takes nothing, so what comes behind it is read from the start.
        exact Or.inl (Script.endsIn_expand_single.mpr hagain)

/-- What is met without the guard is met behind it, unless it is met again at the start. -/
theorem endsIn_guarded (hkeeps : ∀ j v, .success j v ∈ s.outcomes → i ≤ j)
    (hmoves : (further i).Unbroken → ∀ j v, .success j v ∈ s.outcomes → i < j)
    (h : (s.expand (extended further)).EndsIn fault) :
    (s.expand (guarded i further)).EndsIn fault ∨ (further i).EndsIn fault := by
  induction s with
  | done | unread => exact h.elim
  | raised => exact Or.inl h
  | event e rest ih => exact ih hkeeps hmoves h
  | outcome o rest ih =>
    have hrest := ih (fun j v hv => hkeeps j v (List.mem_cons_of_mem o hv))
      fun hu j v hv => hmoves hu j v (List.mem_cons_of_mem o hv)
    rw [Script.expand, Script.endsIn_append_iff] at h ⊢
    cases o with
    | failure index expect =>
      rcases h with h | ⟨hfirst, h⟩
      · exact h.elim
      · exact (hrest h).imp_left fun h => Or.inr ⟨hfirst, h⟩
    | success j v =>
      rcases Int.lt_or_eq_of_le (hkeeps j v List.mem_cons_self) with hlt | rfl
      · rw [guarded_of_lt hlt]
        rcases h with h | ⟨hfirst, h⟩
        · exact Or.inl (Or.inl h)
        · exact (hrest h).imp_left fun h => Or.inr ⟨hfirst, h⟩
      · rcases h with h | ⟨hfirst, _⟩
        · exact Or.inr (Script.endsIn_expand_single.mp h)
        · -- What is read again from the start does not get past this item.
          have hagain := Script.unbroken_expand_single.mp hfirst
          exact absurd (hmoves hagain i v List.mem_cons_self) (Int.lt_irrefl i)

/-! ## Scripts of repetitions -/

theorem script_unfoldMany_eq_guarded : p.unfoldMany.script rules text n i =
    ((p.script rules text n i).expand (guarded i (p.many.script rules text n))).append
      (.single (.success i (.list []))) := by
  have hmany : p.many.script rules text n = repeated (p.script rules text n) n :=
    funext fun j => script_many rules text n j p
  rw [script_unfoldMany, repeated_succ_eq_guarded, hmany]

theorem script_many1 : p.many1.script rules text n i =
    (p.script rules text n i).expand (extended (p.many.script rules text n)) := by
  have hmany : p.many.script rules text n = repeated (p.script rules text n) n :=
    funext fun j => script_many rules text n j p
  rw [many1, script_cons_many, hmany]

/-- With one limit, the first turn of repetitions is read at least as far as they are. -/
theorem script_many_le : p.many.script rules text n i ≤ p.unfoldMany.script rules text n i := by
  rw [script_many, script_unfoldMany]
  exact repeated_le (fun _ => le_refl _) (Nat.le_succ n) i

/-- With one more, repetitions are read at least as far as their first turn was. -/
theorem script_unfoldMany_le :
    p.unfoldMany.script rules text n i ≤ p.many.script rules text (n + 1) i := by
  rw [script_many, script_unfoldMany]
  exact repeated_le (script_le (Nat.le_succ n) p) (Nat.le_refl (n + 1)) i

/-- Only items that move on let repetitions come to an end without a fault. -/
theorem lt_of_unbroken_many (h : (p.many.script rules text n i).Unbroken)
    (hv : .success j v ∈ (p.script rules text n i).outcomes) : i < j := by
  rw [script_many] at h
  cases n with
  | zero => exact h.elim
  | succ n => exact ((unbroken_repeated_succ.mp h).2 j v hv).1

/-! ## The law of one or more -/

/-- The two meet the same faults. -/
theorem meets_many_iff (hkeeps : ∀ j v, p.Yields rules text i (.success j v) → i ≤ j) :
    p.many.Meets rules text i fault ↔ p.many1.Meets rules text i fault := by
  have hle : ∀ n j v, .success j v ∈ (p.script rules text n i).outcomes → i ≤ j :=
    fun _ j v hv => hkeeps j v (yields_of_mem_script hv)
  rw [meets_iff_endsIn, meets_iff_endsIn]
  constructor
  · rintro ⟨n, h⟩
    -- What the first turn meets with some limit, the further ones meet with one more.
    have hturn : (p.unfoldMany.script rules text (n + 1) i).EndsIn fault :=
      (h.of_le script_many_le).of_le (script_le (Nat.le_succ n) _ i)
    have hagain : (p.many.script rules text (n + 1) i).EndsIn fault :=
      h.of_le (script_le (Nat.le_succ n) _ i)
    rw [script_unfoldMany_eq_guarded] at hturn
    have hguarded := (Script.endsIn_append hturn).resolve_right (Script.not_endsIn_single _)
    refine ⟨n + 1, ?_⟩
    rw [script_many1]
    exact endsIn_extended (hle (n + 1)) hagain hguarded
  · rintro ⟨n, h⟩
    rw [script_many1] at h
    have hmoves : (p.many.script rules text n i).Unbroken →
        ∀ j v, .success j v ∈ (p.script rules text n i).outcomes → i < j :=
      fun hu j v hv => lt_of_unbroken_many hu hv
    rcases endsIn_guarded (hle n) hmoves h with h | h
    · refine ⟨n + 1, Script.EndsIn.of_le ?_ script_unfoldMany_le⟩
      rw [script_unfoldMany_eq_guarded]
      exact Script.endsIn_append_iff.mpr (Or.inl h)
    · exact ⟨n, h⟩

/-- Without a fault, any number are one or more and then none. -/
theorem exhausts_many_iff (hkeeps : ∀ j v, p.Yields rules text i (.success j v) → i ≤ j) :
    p.many.Exhausts rules text i events outcomes ↔
      ∃ first, p.many1.Exhausts rules text i events first ∧
        outcomes = first ++ [.success i (.list [])] := by
  simp only [exhausts_iff_holds]
  constructor
  · rintro ⟨n, h⟩
    have hmoves := fun j v => lt_of_unbroken_many (j := j) (v := v) h.unbroken
    have hturn := h.of_le script_many_le
    rw [script_unfoldMany_eq_guarded, expand_guarded hmoves, ← script_many1,
      Script.holds_append_single] at hturn
    obtain ⟨first, hfirst, houtcomes⟩ := hturn
    exact ⟨first, ⟨n, hfirst⟩, houtcomes⟩
  · rintro ⟨first, ⟨n, hfirst⟩, houtcomes⟩
    have hmoves : ∀ j v, .success j v ∈ (p.script rules text n i).outcomes → i < j := by
      intro j v hv
      obtain ⟨place, hplace⟩ := List.mem_iff_getElem?.mp hv
      have hne : j ≠ i := ne_of_unbroken_many1 hfirst.unbroken (c := ⟨place, j, v⟩) hplace
      have hle := hkeeps j v (yields_of_mem_script hv)
      omega
    refine ⟨n + 1, Script.Holds.of_le ?_ script_unfoldMany_le⟩
    rw [script_unfoldMany_eq_guarded, expand_guarded hmoves, ← script_many1,
      Script.holds_append_single]
    exact ⟨first, hfirst, houtcomes⟩

/-- Let no success of the item at a start end before it. Then one or more repetitions come to
an end after finitely many pulls exactly if any number of them do. They meet the same fault,
which for an item that takes nothing carries the same offset, although the first of one or
more items is not asked for progress. And where none is met, any number of repetitions give
what one or more of them give, in the same order and with the same events, and then the list
without items. -/
theorem repetitions_end_alike_with_or_without_a_first_item
    (hkeeps : ∀ j v, p.Yields rules text i (.success j v) → i ≤ j) :
    (p.many.Halts rules text i ↔ p.many1.Halts rules text i) ∧
    (∀ fault, p.many.Meets rules text i fault ↔ p.many1.Meets rules text i fault) ∧
    ∀ events outcomes, p.many.Exhausts rules text i events outcomes ↔
      ∃ first, p.many1.Exhausts rules text i events first ∧
        outcomes = first ++ [.success i (.list [])] := by
  refine ⟨?_, fun fault => meets_many_iff hkeeps, fun events outcomes => exhausts_many_iff hkeeps⟩
  simp only [halts_iff, exhausts_many_iff hkeeps, meets_many_iff hkeeps]
  refine or_congr_left ⟨?_, ?_⟩
  · rintro ⟨events, _, first, hfirst, _⟩
    exact ⟨events, first, hfirst⟩
  · rintro ⟨events, first, hfirst⟩
    exact ⟨events, _, first, hfirst, rfl⟩

/-- A letter that is only looked at is refused as the first item, where it takes nothing, and
as one behind it, where it is looked at again. -/
theorem glance_is_refused_either_way :
    (∀ j v, letterOrGlance.Yields .empty ['a'] 0 (.success j v) → 0 ≤ j) ∧
      letterOrGlance.many.Halts .empty ['a'] 0 ∧ letterOrGlance.many1.Halts .empty ['a'] 0 ∧
      letterOrGlance.many.Meets .empty ['a'] 0 (.emptyRepetition 0) ∧
      letterOrGlance.many1.Meets .empty ['a'] 0 (.emptyRepetition 0) := by
  have hkeeps : ∀ j v, letterOrGlance.Yields .empty ['a'] 0 (.success j v) → 0 ≤ j :=
    le_of_yields_letterOrGlance ['a'] 0
  obtain ⟨hhalts, hmeets, _⟩ := repetitions_end_alike_with_or_without_a_first_item hkeeps
  have hrefused : letterOrGlance.many.Meets .empty ['a'] 0 (.emptyRepetition 0) :=
    meets_iff_endsIn.mpr ⟨2, rfl⟩
  have hends : letterOrGlance.many.Halts .empty ['a'] 0 := halts_iff.mpr (Or.inr ⟨_, hrefused⟩)
  exact ⟨hkeeps, hends, hhalts.mp hends, hrefused, (hmeets _).mp hrefused⟩

end Parser

end Backtrack
