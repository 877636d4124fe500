-- The law of merging: what alternatives report together is merged from what each of them
-- reports. The failures that got furthest are those at the greatest offset, and lists of
-- failures put one behind the other have the greater of their offsets; only where both got
-- as far are expectations of both kept. A choice puts such lists one behind the other.
import Backtrack.Proofs.Logging

namespace Backtrack

namespace Report

variable {errors errors' : List Expected} {index : Int}

/-! ## Lists put one behind the other -/

/-- Behind what is found in one list come those found in another that are not among it. -/
theorem distinct_append_list (expects later : List String) :
    distinct (expects ++ later) =
      distinct expects ++ (distinct later).filter fun d => d ∉ distinct expects := by
  induction later using List.reverseRecOn with
  | nil =>
    rw [List.append_nil]
    exact (List.append_nil _).symm
  | append_singleton later e ih =>
    rw [← List.append_assoc, distinct_append, distinct_append, ih]
    by_cases hlater : e ∈ distinct later
    · rw [if_pos hlater, if_pos]
      by_cases hfirst : e ∈ distinct expects
      · exact List.mem_append_left _ hfirst
      · exact List.mem_append_right _ (List.mem_filter.mpr ⟨hlater, decide_eq_true hfirst⟩)
    · rw [if_neg hlater, List.filter_append]
      by_cases hfirst : e ∈ distinct expects
      · rw [if_pos (List.mem_append_left _ hfirst)]
        simp [hfirst]
      · rw [if_neg, List.append_assoc]
        · simp [hfirst]
        · simp [hlater, hfirst]

theorem expectedAt_append (index : Int) (errors errors' : List Expected) :
    expectedAt index (errors ++ errors') = expectedAt index errors ++ expectedAt index errors' := by
  simp [expectedAt]

/-- Nothing was expected where no failure is. -/
theorem expectedAt_eq_nil (h : ∀ e ∈ errors, e.index ≠ index) : expectedAt index errors = [] := by
  rw [expectedAt, List.filter_eq_nil_iff.mpr fun e he => by simpa using h e he]
  rfl

/-! ## What decides how far failures got -/

/-- The offset is the greatest of the failures. -/
structure Reaches (errors : List Expected) (index : Int) : Prop where
  exists_index_eq : ∃ e ∈ errors, e.index = index
  index_le : ∀ e ∈ errors, e.index ≤ index

theorem reaches_furthest (h : errors ≠ []) : Reaches errors (furthest errors).1 :=
  ⟨exists_index_eq_furthest h, fun _ => index_le_furthest⟩

/-- The greatest offset decides what got furthest. -/
theorem Reaches.furthest_eq (h : Reaches errors index) :
    furthest errors = (index, distinct (expectedAt index errors)) := by
  obtain ⟨e, he, hindex⟩ := h.exists_index_eq
  obtain ⟨e', he', hindex'⟩ := exists_index_eq_furthest (List.ne_nil_of_mem he)
  have hle := index_le_furthest he
  have hle' := h.index_le e' he'
  have hsame : (furthest errors).1 = index := by omega
  rw [← hsame, ← furthest_snd]

theorem Reaches.append (h : Reaches errors index) (hle : ∀ e ∈ errors', e.index ≤ index) :
    Reaches (errors ++ errors') index ∧ Reaches (errors' ++ errors) index := by
  obtain ⟨e, he, hindex⟩ := h.exists_index_eq
  refine ⟨⟨⟨e, List.mem_append_left _ he, hindex⟩, fun e' he' => ?_⟩,
    ⟨⟨e, List.mem_append_right _ he, hindex⟩, fun e' he' => ?_⟩⟩
  · exact (List.mem_append.mp he').elim (h.index_le e') (hle e')
  · exact (List.mem_append.mp he').elim (hle e') (h.index_le e')

/-! ## Merging -/

/-- What got furthest of two, each given by its offset and expectations: the one with the
greater offset, and behind the expectations of the first those of the second that are not
among them if the offsets are the same. -/
def merge (a b : Int × List String) : Int × List String :=
  if a.1 < b.1 then b
  else if b.1 < a.1 then a
  else (a.1, a.2 ++ b.2.filter fun d => d ∉ a.2)

/-- All merged in their order. -/
def mergeAll : List (Int × List String) → Int × List String
  | [] => (0, [])
  | a :: rest => rest.foldl merge a

/-- What got furthest in two lists of failures is merged from what did in each. -/
theorem furthest_append (h : errors ≠ []) (h' : errors' ≠ []) :
    furthest (errors ++ errors') = merge (furthest errors) (furthest errors') := by
  have hreach := reaches_furthest h
  have hreach' := reaches_furthest h'
  unfold merge
  split
  · next hlt =>
    -- No failure of the first list is as far, so its expectations are left out.
    have hle : ∀ e ∈ errors, e.index < (furthest errors').1 := fun e he =>
      Int.lt_of_le_of_lt (index_le_furthest he) hlt
    rw [(hreach'.append fun e he => Int.le_of_lt (hle e he)).2.furthest_eq, expectedAt_append,
      expectedAt_eq_nil fun e he => Int.ne_of_lt (hle e he)]
    exact hreach'.furthest_eq.symm
  · next hge =>
    split
    · next hlt =>
      have hle : ∀ e ∈ errors', e.index < (furthest errors).1 := fun e he =>
        Int.lt_of_le_of_lt (index_le_furthest he) hlt
      rw [(hreach.append fun e he => Int.le_of_lt (hle e he)).1.furthest_eq, expectedAt_append,
        expectedAt_eq_nil fun e he => Int.ne_of_lt (hle e he), List.append_nil]
      exact hreach.furthest_eq.symm
    · next hge' =>
      have hsame : (furthest errors').1 = (furthest errors).1 := by omega
      have hle : ∀ e ∈ errors', e.index ≤ (furthest errors).1 := fun e he =>
        hsame ▸ index_le_furthest he
      rw [(hreach.append hle).1.furthest_eq, expectedAt_append, distinct_append_list,
        ← furthest_snd, ← hsame, ← furthest_snd]

theorem furthest_foldl_append {lists : List (List Expected)} (h : errors ≠ [])
    (hlists : ∀ errors' ∈ lists, errors' ≠ []) :
    furthest (errors ++ lists.flatten) = (lists.map furthest).foldl merge (furthest errors) := by
  induction lists generalizing errors with
  | nil => rw [List.flatten_nil, List.append_nil, List.map_nil, List.foldl_nil]
  | cons errors' lists ih =>
    obtain ⟨hfirst, hrest⟩ := List.forall_mem_cons.mp hlists
    have hboth : errors ++ errors' ≠ [] := List.append_ne_nil_of_left_ne_nil h errors'
    rw [List.flatten_cons, ← List.append_assoc, ih hboth hrest, furthest_append h hfirst,
      List.map_cons, List.foldl_cons]

/-- What got furthest in any number of lists is merged in their order. -/
theorem furthest_flatten {lists : List (List Expected)} (h : ∀ errors ∈ lists, errors ≠ []) :
    furthest lists.flatten = mergeAll (lists.map furthest) := by
  cases lists with
  | nil => rfl
  | cons errors lists =>
    obtain ⟨hfirst, hrest⟩ := List.forall_mem_cons.mp h
    exact furthest_foldl_append hfirst hrest

/-! ## What is told of a list -/

/-- The offset is the greatest of the failures, and what was expected there is told once
each, in the order in which it was first reported. -/
structure Tells (errors : List Expected) (furthest : Int × List String) : Prop where
  reaches : Reaches errors furthest.1
  expects_ne_nil : furthest.2 ≠ []
  nodup : furthest.2.Nodup
  mem_expects : ∀ d, d ∈ furthest.2 ↔ ⟨furthest.1, d⟩ ∈ errors
  in_order : furthest.2.Pairwise fun d d' =>
    errors.idxOf ⟨furthest.1, d⟩ < errors.idxOf ⟨furthest.1, d'⟩

theorem tells_furthest (h : errors ≠ []) : Tells errors (furthest errors) := by
  have hreach := reaches_furthest h
  obtain ⟨e, he, hindex⟩ := hreach.exists_index_eq
  have hmem : e.expect ∈ (furthest errors).2 := by
    rw [mem_furthest, ← hindex]
    exact he
  exact ⟨hreach, List.ne_nil_of_mem hmem, nodup_furthest errors, fun d => mem_furthest,
    pairwise_furthest errors⟩

/-! ## What changes nothing -/

/-- A failure that did not get as far changes nothing, wherever it stands. -/
theorem furthest_insert {before after : List Expected} {e : Expected} (h : before ++ after ≠ [])
    (he : e.index < (furthest (before ++ after)).1) :
    furthest (before ++ e :: after) = furthest (before ++ after) := by
  have hreach := reaches_furthest h
  obtain ⟨e', he', hindex⟩ := hreach.exists_index_eq
  have hmem : ∀ d ∈ before ++ after, d ∈ before ++ e :: after := by
    simp only [List.mem_append, List.mem_cons]
    tauto
  have hsame : Reaches (before ++ e :: after) (furthest (before ++ after)).1 := by
    refine ⟨⟨e', hmem e' he', hindex⟩, fun d hd => ?_⟩
    rcases List.mem_append.mp hd with hd | hd
    · exact hreach.index_le d (List.mem_append_left _ hd)
    · rcases List.mem_cons.mp hd with rfl | hd
      · exact Int.le_of_lt he
      · exact hreach.index_le d (List.mem_append_right _ hd)
  have hlist : expectedAt (furthest (before ++ after)).1 (before ++ e :: after) =
      expectedAt (furthest (before ++ after)).1 (before ++ after) := by
    have hne : (e.index == (furthest (before ++ after)).1) = false := beq_false_of_ne (Int.ne_of_lt he)
    simp [expectedAt, List.filter_append, hne]
  rw [hsame.furthest_eq, hlist, ← furthest_snd]

/-- To report last what was expected furthest before changes nothing. -/
theorem furthest_append_listed {d : String} (h : errors ≠ []) (hd : d ∈ (furthest errors).2) :
    furthest (errors ++ [⟨(furthest errors).1, d⟩]) = furthest errors := by
  have hone : furthest [⟨(furthest errors).1, d⟩] = ((furthest errors).1, [d]) := by
    simp [furthest, distinct]
  rw [furthest_append h (List.cons_ne_nil _ _), hone, merge, if_neg (Int.lt_irrefl _),
    if_neg (Int.lt_irrefl _)]
  simp [hd]

end Report

/-! ## Parsers -/

namespace Parser

open Report (furthest merge mergeAll)

variable {rules : Rules} {text : Text} {p q : Parser} {errors errors' : List Expected}

/-- With enough fuel, a parse of the text reports these failures. -/
def Fails (rules : Rules) (text : Text) (p : Parser) (errors : List Expected) : Prop :=
  ∃ events, p.Reports rules text false ⟨events, .ok (.failure errors)⟩

/-- A parse fails with all that is met, if this is no success and no fault. -/
theorem fails_iff : p.Fails rules text errors ↔ ∃ r, p.Seeks rules text 0 r ∧ r.stop = .exhausted ∧
    errors = r.outcomes.map Outcome.expected := by
  simp only [Fails, reports_iff_seeks]
  constructor
  · rintro ⟨events, ⟨shown, outcomes, stop⟩, hr, hreport⟩
    refine ⟨_, hr, ?_⟩
    cases stop with
    | faulted fault => cases hreport
    | satisfied =>
      obtain ⟨before, j, v, rfl, hbefore⟩ := hr.first
      rw [Shown.reported_satisfied hbefore] at hreport
      cases hreport
    | exhausted =>
      rw [Shown.reported_exhausted hr.first] at hreport
      cases hreport
      exact ⟨rfl, rfl⟩
  · rintro ⟨⟨events, outcomes, stop⟩, hr, hstop, rfl⟩
    cases hstop
    exact ⟨_, _, hr, (Shown.reported_exhausted hr.first text.length).symm⟩

/-- A choice of two that fail reports the failures of the first and then of the second. -/
theorem Fails.or (hp : p.Fails rules text errors) (hq : q.Fails rules text errors') :
    (p.or q).Fails rules text (errors ++ errors') := by
  obtain ⟨first, hfirst, hstop, rfl⟩ := fails_iff.mp hp
  obtain ⟨later, hlater, hstop', rfl⟩ := fails_iff.mp hq
  have hboth := seeks_or_iff.mpr (Or.inr ⟨first, later, hfirst, hstop, hlater, rfl⟩)
  exact fails_iff.mpr ⟨_, hboth, hstop', List.map_append.symm⟩

theorem Fails.foldl_or {ps : List Parser} {lists : List (List Expected)}
    (hps : List.Forall₂ (Fails rules text) ps lists) (hp : p.Fails rules text errors) :
    (ps.foldl .or p).Fails rules text (errors ++ lists.flatten) := by
  induction hps generalizing p errors with
  | nil =>
    rw [List.flatten_nil, List.append_nil]
    exact hp
  | cons hq _ ih =>
    rw [List.flatten_cons, ← List.append_assoc]
    exact ih (hp.or hq)

/-- A choice of some that fail reports the failures of all in their order. -/
theorem fails_choice {ps : List Parser} {lists : List (List Expected)} (hne : ps ≠ [])
    (hps : List.Forall₂ (Fails rules text) ps lists) :
    (choice ps).Fails rules text lists.flatten := by
  cases hps with
  | nil => exact (hne rfl).elim
  | cons hp hrest => exact hp.foldl_or hrest

/-! ## The law of merging -/

/-- What got furthest is told of every list of failures: the greatest offset and what was
expected there. Nearer failures may be left out anywhere, and what was expected furthest
need not be reported again at the end. What got furthest in one list and then another is
merged from what did in each. So a choice of two parsers that fail reports the failures of
both, and what got furthest is merged from theirs; and so it is for any number of them. -/
theorem alternatives_that_fail_are_merged (rules : Rules) (text : Text) :
    (∀ errors, errors ≠ [] → Report.Tells errors (furthest errors) ∧
      ∀ d ∈ (furthest errors).2,
        furthest (errors ++ [⟨(furthest errors).1, d⟩]) = furthest errors) ∧
    (∀ before after e, before ++ after ≠ [] → e.index < (furthest (before ++ after)).1 →
      furthest (before ++ e :: after) = furthest (before ++ after)) ∧
    (∀ errors errors', errors ≠ [] → errors' ≠ [] →
      furthest (errors ++ errors') = merge (furthest errors) (furthest errors')) ∧
    (∀ p q errors errors', Fails rules text p errors → Fails rules text q errors' →
      errors ≠ [] → errors' ≠ [] → (p.or q).Fails rules text (errors ++ errors') ∧
        furthest (errors ++ errors') = merge (furthest errors) (furthest errors')) ∧
    ∀ ps lists, ps ≠ [] → List.Forall₂ (Fails rules text) ps lists →
      (∀ errors ∈ lists, errors ≠ []) → (choice ps).Fails rules text lists.flatten ∧
        furthest lists.flatten = mergeAll (lists.map furthest) := by
  refine ⟨?_, ?_, ?_, ?_, ?_⟩
  · exact fun errors h => ⟨Report.tells_furthest h, fun d => Report.furthest_append_listed h⟩
  · exact fun before after e => Report.furthest_insert
  · exact fun errors errors' => Report.furthest_append
  · exact fun p q errors errors' hp hq h h' => ⟨hp.or hq, Report.furthest_append h h'⟩
  · exact fun ps lists hne hps h => ⟨fails_choice hne hps, Report.furthest_flatten h⟩

/-- Two of three alternatives get behind the first character, and expect the same there. -/
theorem alternatives_behind_a_character :
    let ps : List Parser := [string "x", (string "a").pair (string "y"),
      (string "a").pair ((string "z").or (string "y"))]
    let lists : List (List Expected) :=
      [[⟨0, "string x"⟩], [⟨1, "string y"⟩], [⟨1, "string z"⟩, ⟨1, "string y"⟩]]
    List.Forall₂ (Fails .empty ['a']) ps lists ∧ (∀ errors ∈ lists, errors ≠ []) ∧
      (choice ps).Fails .empty ['a'] lists.flatten ∧
      furthest lists.flatten = (1, ["string y", "string z"]) := by
  intro ps lists
  have hfails : ∀ (p : Parser) (outcomes : List Outcome),
      (p.script .empty ['a'] 0 0).seek = some ⟨[], outcomes, .exhausted⟩ →
        p.Fails .empty ['a'] (outcomes.map Outcome.expected) :=
    fun p outcomes h => fails_iff.mpr ⟨_, seeks_iff_seek_script.mpr ⟨0, h⟩, rfl, rfl⟩
  have hps : List.Forall₂ (Fails .empty ['a']) ps lists := by
    refine .cons (hfails _ [.failure 0 "string x"] rfl) <|
      .cons (hfails _ [.failure 1 "string y"] rfl) <|
      .cons (hfails _ [.failure 1 "string z", .failure 1 "string y"] rfl) .nil
  have hne : ∀ errors ∈ lists, errors ≠ [] := by simp [lists]
  obtain ⟨_, _, _, _, hchoice⟩ := alternatives_that_fail_are_merged .empty ['a']
  obtain ⟨hreport, hmerged⟩ := hchoice ps lists (List.cons_ne_nil _ _) hps hne
  refine ⟨hps, hne, hreport, hmerged.trans ?_⟩
  decide

end Parser

end Backtrack
