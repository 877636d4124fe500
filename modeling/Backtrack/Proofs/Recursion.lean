-- The law of recursion: recursive parsers come to an end if every way from one of
-- them back to itself leads through the second part of a pair whose first part
-- takes something. Offsets never move backwards on such a way, and move forward
-- at least once, so it is gone only as often as the text has characters.
import Backtrack.Proofs.Ends
import Mathlib.Order.WellFoundedSet

namespace Backtrack

namespace Parser

/-! ## Guarded references -/

/-- On every text and from every start, each success ends behind the start. -/
def Advances (rules : Rules) (p : Parser) : Prop :=
  ∀ text i j v, p.Yields rules text i (.success j v) → i < j

/-- The parser refers to the recursive parser in the open: somewhere that is not in
the second part of a pair whose first part advances. -/
def Exposes (rules : Rules) (handle : Handle) : Parser → Prop
  | leaf _ | custom _ => False
  | pair p q => p.Exposes rules handle ∨ ¬ p.Advances rules ∧ q.Exposes rules handle
  | or p q => p.Exposes rules handle ∨ q.Exposes rules handle
  | mapOutcome _ p | not p | many p => p.Exposes rules handle
  | ref other => other = handle

/-- No step function of the user's is in the parser, and wherever an outcome is
changed, its offset stays as it is or goes back to the start. -/
def Steady : Parser → Prop :=
  Everywhere fun
    | custom _ => False
    | mapOutcome change _ =>
      ∀ o i o', (change o i).result = .ok o' → o'.index = o.index ∨ o'.index = i
    | _ => True

end Parser

namespace Rules

/-- The body of the one recursive parser refers to the other in the open. -/
def Unguarded (rules : Rules) (handle other : Handle) : Prop :=
  ∃ body, rules.body? handle = some body ∧ body.Exposes rules other

/-- No recursive parser leads back to itself in the open, through its own body and
those of others: on the way from its body to each reference to it, within the body
itself or in what is defined inside, a first part advances. -/
def Guarded (rules : Rules) : Prop :=
  ∀ handle, ¬ Relation.TransGen rules.Unguarded handle handle

/-- Since the table is finite, what holds of a recursive parser if it holds of those
that it refers to in the open holds of all. -/
theorem Guarded.induction {rules : Rules} (h : rules.Guarded) {P : Handle → Prop}
    (hP : ∀ handle, (∀ other, rules.Unguarded handle other → P other) → P handle)
    (handle : Handle) : P handle := by
  have : IsTrans Handle (Function.swap (Relation.TransGen rules.Unguarded)) :=
    ⟨fun _ _ _ hab hbc => hbc.trans hab⟩
  have : Std.Irrefl (Function.swap (Relation.TransGen rules.Unguarded)) := ⟨h⟩
  have : IsStrictOrder Handle (Function.swap (Relation.TransGen rules.Unguarded)) := {}
  have hfinite : (Set.Iio rules.nextHandle).WellFoundedOn
      (Function.swap (Relation.TransGen rules.Unguarded)) :=
    (Set.finite_Iio _).wellFoundedOn
  -- A handle that was never given out has no body, and so refers to nothing.
  have hout : ∀ other, rules.nextHandle ≤ other → P other := by
    intro other hother
    refine hP other fun _ hu => ?_
    obtain ⟨body, hb, _⟩ := hu
    rw [body?_eq_none hother] at hb
    cases hb
  by_cases hin : handle < rules.nextHandle
  · refine hfinite.induction hin fun handle _ ih => hP handle fun other hu => ?_
    by_cases hother : other < rules.nextHandle
    · exact ih other hother (.single hu)
    · exact hout other (Nat.le_of_not_lt hother)
  · exact hout handle (Nat.le_of_not_lt hin)

end Rules

namespace Parser

variable {rules : Rules} {text : Text} {p : Parser} {i j : Int}

/-! ## Offsets on the way to a reference -/

theorem Steady.keeps (h : p.Steady) : p.Keeps text (Outcome.Within text) := by
  refine Everywhere.imp (fun q hq => ?_) h
  cases q with
  | custom step => exact hq.elim
  | mapOutcome change q =>
    intro i o o' ho hresult
    simp only [Outcome.Within] at ho ⊢
    rcases hq o i o' hresult with hindex | hindex <;> omega
  | _ => trivial

theorem Reaches.within (h : p.Reaches rules text i j) (hrules : rules.All Steady)
    (hp : p.Steady) : i ≤ j ∧ j ≤ max i text.length := by
  obtain ⟨n, v, hv⟩ := h
  have hkeeps : rules.All (Keeps text (Outcome.Within text)) :=
    fun handle body hb => (hrules handle body hb).keeps
  exact (Outcome.Within.law text).of_mem_script hkeeps hp.keeps hv

/-- Functions of values are steady, and so are descriptions and looking ahead. -/
theorem Steady.map (f : Value → Action Value) (hp : p.Steady) : (p.map f).Steady := by
  refine ⟨fun o i o' h => ?_, hp⟩
  rcases result_onValue h with ⟨_, _, _, rfl⟩ | ⟨j, v, w, rfl, _, rfl⟩
  · exact Or.inl rfl
  · exact Or.inl rfl

theorem Steady.describe (expect : String) (hp : p.Steady) : (p.describe expect).Steady := by
  refine ⟨fun o i o' h => ?_, hp⟩
  cases o <;> cases h <;> exact Or.inl rfl

theorem Steady.peek (hp : p.Steady) : p.peek.Steady := by
  refine ⟨fun o i o' h => ?_, hp⟩
  cases o with
  | success j v =>
    cases h
    exact Or.inr rfl
  | failure j e =>
    cases h
    exact Or.inl rfl

/-- One offset: a parser comes to an end if the recursive parsers do that it refers to
in the open, and everything does that is read from further on. -/
theorem ends_of_exposed (hrules : rules.All Steady) (hp : p.Steady)
    (hrefs : ∀ handle, p.Exposes rules handle → (ref handle).Ends rules text i)
    (further : ∀ j : Int, i < j → j ≤ max i text.length →
      ∀ q : Parser, q.Steady → q.Ends rules text j) : p.Ends rules text i := by
  induction p with
  | leaf l => exact ends_leaf l
  | custom step => exact hp.elim
  | pair p q ihp ihq =>
    refine ends_pair (ihp hp.2.1 fun handle h => hrefs handle (Or.inl h)) fun j hj => ?_
    obtain ⟨hle, hend⟩ := hj.within hrules hp.2.1
    by_cases hlt : i < j
    · exact further j hlt hend q hp.2.2
    · have hsame : j = i := by omega
      subst hsame
      have hstays : ¬ p.Advances rules := by
        intro hadvances
        obtain ⟨v, hv⟩ := hj.yields
        exact hlt (hadvances text _ _ v hv)
      exact ihq hp.2.2 fun handle h => hrefs handle (Or.inr ⟨hstays, h⟩)
  | or p q ihp ihq =>
    exact ends_or (ihp hp.2.1 fun handle h => hrefs handle (Or.inl h))
      (ihq hp.2.2 fun handle h => hrefs handle (Or.inr h))
  | mapOutcome change p ih => exact ends_mapOutcome (ih hp.2 hrefs)
  | not p ih => exact ends_not (ih hp.2 hrefs)
  | many p ih =>
    refine ends_many (ih hp.2 hrefs) fun j hj hlt => ?_
    exact further j hlt (hj.within hrules hp.2).2 p.many hp
  | ref handle => exact hrefs handle rfl

/-! ## The law of recursion -/

theorem ends_of_guarded (hguarded : rules.Guarded) (hrules : rules.All Steady) (i : Int) :
    ∀ p : Parser, p.Steady → p.Ends rules text i := by
  induction i using text.forward_induction with
  | h i further =>
    have hrefs : ∀ handle, (ref handle).Ends rules text i := by
      intro handle
      induction handle using hguarded.induction with
      | hP handle ih =>
        refine ends_ref fun body hb => ends_of_exposed hrules (hrules handle body hb) ?_ further
        exact fun other hother => ih other ⟨body, hb, hother⟩
    exact fun p hp => ends_of_exposed hrules hp (fun handle _ => hrefs handle) further

/-- A parser whose recursive parsers are guarded comes to an end on every text and
from every start, however they refer to each other, and wherever the references lie
below repetitions, choices, absences and other recursive parsers. -/
theorem guarded_recursion_comes_to_an_end (hguarded : rules.Guarded) (hrules : rules.All Steady)
    (hp : p.Steady) (text : Text) (i : Int) : p.Halts rules text i :=
  (ends_of_guarded hguarded hrules i p hp).halts

/-! ## Parentheses -/

theorem advances_string {literal : String} (h : literal ≠ "") :
    (string literal).Advances rules := by
  intro text i j v hv
  obtain ⟨n, hv⟩ := hv.mem_script
  rw [string, script_leaf, Script.mem_outcomes_ofResult, Leaf.attempt] at hv
  have hlength : 0 < literal.length := by
    have := mt String.length_eq_zero_iff.mp h
    omega
  split at hv
  · cases hv
    omega
  · cases hv

/-- Any number of parentheses, each opened and then closed by a second recursive
parser, which goes on with the first in the open. -/
def parentheses : Rules :=
  ⟨#[some ((string "(").keepSecond (ref 1)).many, some ((ref 0).keepFirst (string ")"))]⟩

theorem parentheses_all_steady : parentheses.All Steady := by
  intro handle body hb
  match handle with
  | 0 =>
    cases hb
    exact ⟨trivial, Steady.map _ ⟨trivial, trivial, trivial⟩⟩
  | 1 =>
    cases hb
    exact Steady.map _ ⟨trivial, trivial, trivial⟩
  | n + 2 => simp [Rules.body?, parentheses] at hb

theorem parentheses_guarded : parentheses.Guarded := by
  have hopen : ∀ handle other, parentheses.Unguarded handle other → handle = 1 ∧ other = 0 := by
    rintro handle other ⟨body, hb, hother⟩
    match handle with
    | 0 =>
      cases hb
      rcases hother with hother | ⟨hstays, _⟩
      · exact hother.elim
      · exact absurd (advances_string (by decide)) hstays
    | 1 =>
      cases hb
      rcases hother with hother | ⟨_, hother⟩
      · exact ⟨rfl, hother.symm⟩
      · exact hother.elim
    | n + 2 => simp [Rules.body?, parentheses] at hb
  intro handle h
  obtain ⟨_, hfirst, _⟩ := Relation.TransGen.head'_iff.mp h
  obtain ⟨_, _, hlast⟩ := Relation.TransGen.tail'_iff.mp h
  have hone := (hopen _ _ hfirst).1
  have hzero := (hopen _ _ hlast).2
  exact absurd (hone.symm.trans hzero) (by decide)

theorem parentheses_come_to_an_end :
    parentheses.Guarded ∧ parentheses.All Steady ∧ (ref 0).Steady ∧
      (ref 0).Halts parentheses ['(', '(', ')', ')'] 0 := by
  have hstart : (ref 0).Steady := trivial
  exact ⟨parentheses_guarded, parentheses_all_steady, hstart,
    guarded_recursion_comes_to_an_end parentheses_guarded parentheses_all_steady hstart _ 0⟩

end Parser

end Backtrack
