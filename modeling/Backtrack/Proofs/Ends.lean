-- The laws of coming to an end: when each form of parser does, given that its parts
-- do, and that repetition alone always does. Sequences and repetitions ask where
-- their first part may end, since something is read again from there.
import Backtrack.Proofs.Offsets
import Backtrack.Proofs.Stream.Showing

namespace Backtrack

namespace Parser

/-- With enough recursion, the script of the parser is known to its end. -/
def Ends (rules : Rules) (text : Text) (p : Parser) (i : Int) : Prop :=
  ∃ n, (p.script rules text n i).Whole

/-- The parser has a success that leads from the one offset to the other. -/
def Reaches (rules : Rules) (text : Text) (p : Parser) (i j : Int) : Prop :=
  ∃ n v, .success j v ∈ (p.script rules text n i).outcomes

/-- Each step function of the user's in the parser comes to an end. -/
def StepsEnd (text : Text) : Parser → Prop :=
  Everywhere fun
    | custom step => ∀ i, (Script.ofAction (step text i)).Whole
    | _ => True

variable {rules : Rules} {text : Text} {p q : Parser} {i j : Int}

theorem Ends.halts (h : p.Ends rules text i) : p.Halts rules text i := by
  obtain ⟨n, hn⟩ := h
  exact halts_of_whole hn

theorem Halts.ends (h : p.Halts rules text i) : p.Ends rules text i := by
  obtain ⟨pulls, enough, h⟩ := h
  rcases h enough (Nat.le_refl enough) with ⟨called, fault, hs⟩ | ⟨called, s, r, hs, hr, hstop⟩
  · obtain ⟨n, hn⟩ := script_of_refused hs
    refine ⟨n, ?_⟩
    rw [hn, Script.whole_withEvents]
    trivial
  · obtain ⟨n, rest, hle, htake⟩ := script_of_run hs hr
    have hrest : rest.Whole := by
      rcases hstop with hstop | ⟨fault, hstop⟩
      · exact (Script.unbroken_of_take htake hstop).1.whole
      · exact Script.whole_iff.mpr (Or.inr ⟨fault, Script.endsIn_of_read htake hstop⟩)
    exact ⟨n, ((Script.whole_withEvents _ _).mpr hrest).of_le hle⟩

theorem halts_iff_ends : p.Halts rules text i ↔ p.Ends rules text i := ⟨Halts.ends, Ends.halts⟩

/-- A parser that comes to an end is exhausted or meets a fault. -/
theorem halts_iff : p.Halts rules text i ↔
    (∃ events outcomes, p.Exhausts rules text i events outcomes) ∨
      ∃ fault, p.Meets rules text i fault := by
  simp only [halts_iff_ends, Ends, Script.whole_iff, exhausts_iff_holds, meets_iff_endsIn]
  constructor
  · rintro ⟨n, h | ⟨fault, h⟩⟩
    · exact Or.inl ⟨_, _, n, h.holds⟩
    · exact Or.inr ⟨fault, n, h⟩
  · rintro (⟨events, outcomes, n, h⟩ | ⟨fault, n, h⟩)
    · exact ⟨n, Or.inl h.unbroken⟩
    · exact ⟨n, Or.inr ⟨fault, h⟩⟩

theorem Reaches.yields (h : p.Reaches rules text i j) :
    ∃ v, p.Yields rules text i (.success j v) := by
  obtain ⟨n, v, hv⟩ := h
  exact ⟨v, yields_of_mem_script hv⟩

/-- Where progress is asked for, every success gets past its start. -/
theorem Reaches.of_advancing (h : p.advancing.Reaches rules text i j) :
    p.Reaches rules text i j ∧ i < j := by
  obtain ⟨n, v, hv⟩ := h
  rw [advancing, script_mapOutcome] at hv
  obtain ⟨o, ho, h⟩ := Script.mem_outcomes_change hv
  obtain ⟨hsame, hlt⟩ := result_requireProgress h
  rw [← hsame] at ho
  exact ⟨⟨n, v, ho⟩, hlt j v hsame.symm⟩

/-! ## The forms of parsers -/

theorem ends_leaf (l : Leaf) : (leaf l).Ends rules text i :=
  ⟨0, script_leaf rules text 0 i l ▸ Script.whole_ofResult _⟩

theorem ends_custom {step : Text → Int → Action Script}
    (h : (Script.ofAction (step text i)).Whole) : (custom step).Ends rules text i :=
  ⟨0, script_custom rules text 0 i step ▸ h⟩

theorem ends_or (hp : p.Ends rules text i) (hq : q.Ends rules text i) :
    (p.or q).Ends rules text i := by
  obtain ⟨n, hn⟩ := hp
  obtain ⟨m, hm⟩ := hq
  refine ⟨max n m, ?_⟩
  rw [script_or]
  exact (hn.of_le (script_le (Nat.le_max_left n m) p i)).append
    (hm.of_le (script_le (Nat.le_max_right n m) q i))

theorem ends_mapOutcome {change : Outcome → Int → Action Outcome} (h : p.Ends rules text i) :
    (p.mapOutcome change).Ends rules text i := by
  obtain ⟨n, hn⟩ := h
  exact ⟨n, script_mapOutcome rules text n i change p ▸ hn.change _⟩

theorem ends_not (h : p.Ends rules text i) : p.not.Ends rules text i := by
  obtain ⟨n, hn⟩ := h
  exact ⟨n, script_not rules text n i p ▸ hn.negate text i⟩

/-- One limit is enough for all ends of finitely many successes. -/
theorem exists_common_limit (outcomes : List Outcome)
    (h : ∀ j v, .success j v ∈ outcomes → q.Ends rules text j) :
    ∃ n, ∀ j v, .success j v ∈ outcomes → (q.script rules text n j).Whole := by
  induction outcomes with
  | nil => exact ⟨0, fun j v hv => by cases hv⟩
  | cons o rest ih =>
    obtain ⟨n, hn⟩ := ih fun j v hv => h j v (List.mem_cons_of_mem o hv)
    cases o with
    | failure index expect =>
      refine ⟨n, fun j v hv => ?_⟩
      rcases List.mem_cons.mp hv with hv | hv
      · cases hv
      · exact hn j v hv
    | success index value =>
      obtain ⟨m, hm⟩ := h index value List.mem_cons_self
      refine ⟨max n m, fun j v hv => ?_⟩
      rcases List.mem_cons.mp hv with hv | hv
      · cases hv
        exact hm.of_le (script_le (Nat.le_max_right n m) q index)
      · exact (hn j v hv).of_le (script_le (Nat.le_max_left n m) q j)

theorem ends_pair (hp : p.Ends rules text i)
    (hq : ∀ j, p.Reaches rules text i j → q.Ends rules text j) :
    (p.pair q).Ends rules text i := by
  obtain ⟨n, hn⟩ := hp
  obtain ⟨m, hm⟩ := exists_common_limit (q := q) (p.script rules text n i).outcomes
    fun j v hv => hq j ⟨n, v, hv⟩
  have hsame := hn.eq_of_le (script_le (Nat.le_max_left n m) p i)
  refine ⟨max n m, ?_⟩
  rw [script_pair, ← hsame]
  refine hn.pairWith fun j v hv => (hm j v hv).of_le ?_
  exact script_le (Nat.le_max_right n m) q j

/-- Repetitions come to an end where one does, and where those do that are read
from further on. -/
theorem ends_many (hp : p.Ends rules text i)
    (h : ∀ j, p.Reaches rules text i j → i < j → p.many.Ends rules text j) :
    p.many.Ends rules text i := by
  have hmore : (p.advancing.cons p.many).Ends rules text i := by
    refine ends_mapOutcome (ends_pair (ends_mapOutcome hp) fun j hj => ?_)
    obtain ⟨hj, hlt⟩ := hj.of_advancing
    exact h j hj hlt
  obtain ⟨n, hn⟩ : p.unfoldMany.Ends rules text i := ends_or hmore (ends_leaf _)
  refine ⟨n + 1, ?_⟩
  rw [script_unfoldMany] at hn
  rw [script_many]
  exact hn.of_le (repeated_le (script_le (Nat.le_succ n) p) (Nat.le_refl _) i)

theorem ends_ref {handle : Handle}
    (h : ∀ body, rules.body? handle = some body → body.Ends rules text i) :
    (ref handle).Ends rules text i := by
  cases hb : rules.body? handle with
  | none => exact ⟨1, script_ref_undefined rules text 0 i hb ▸ trivial⟩
  | some body =>
    obtain ⟨n, hn⟩ := h body hb
    exact ⟨n + 1, script_ref rules text n i hb ▸ hn⟩

/-! ## The law of repetition -/

theorem ends_of_withoutRefs (hrefs : p.WithoutRefs) (hsteps : p.StepsEnd text)
    (hp : p.Keeps text (Outcome.SucceedsWithin text)) (i : Int) : p.Ends rules text i := by
  induction p generalizing i with
  | leaf l => exact ends_leaf l
  | custom step => exact ends_custom (hsteps i)
  | pair p q ihp ihq =>
    exact ends_pair (ihp hrefs.2.1 hsteps.2.1 hp.2.1 i) fun j _ => ihq hrefs.2.2 hsteps.2.2 hp.2.2 j
  | or p q ihp ihq =>
    exact ends_or (ihp hrefs.2.1 hsteps.2.1 hp.2.1 i) (ihq hrefs.2.2 hsteps.2.2 hp.2.2 i)
  | mapOutcome change p ih => exact ends_mapOutcome (ih hrefs.2 hsteps.2 hp.2 i)
  | not p ih => exact ends_not (ih hrefs.2 hsteps.2 hp.2 i)
  | many p ih =>
    -- Each repetition starts further on, and none starts behind the end of the text.
    induction i using text.forward_induction with
    | h i further =>
      refine ends_many (ih hrefs.2 hsteps.2 hp.2 i) fun j hj hlt => further j hlt ?_
      obtain ⟨n, v, hv⟩ := hj
      rw [script_of_withoutRefs hrefs.2 rules .empty] at hv
      exact (Outcome.SucceedsWithin.law text).of_mem_script (Rules.empty_all _) hp.2 hv j v rfl
  | ref handle => exact hrefs.elim

/-- A parser without recursive parsers comes to an end on every text and from every
start, whatever is repeated in it: also where repetitions lie in each other, and
where what they repeat may take nothing. Of the user's functions it asks that step
functions give finitely many outcomes, and that none of them makes a success reach
beyond the end of the text. -/
theorem repetition_alone_comes_to_an_end (rules : Rules) {text : Text} {p : Parser}
    (hrefs : p.WithoutRefs) (hsteps : p.StepsEnd text)
    (hp : p.Keeps text (Outcome.SucceedsWithin text)) (i : Int) : p.Halts rules text i :=
  (ends_of_withoutRefs hrefs hsteps hp i).halts

/-- Repetitions in each other, of items that take nothing: a step function that leaps
to the end of the text, taken back to its start, between any number of letters. -/
theorem repetition_of_empty_items_comes_to_an_end :
    let text : Text := ['a', 'b']
    let leap : Parser := custom fun text i =>
      pure (.ofOutcomes [.success (max i text.length) .none, .failure i "more"])
    let p : Parser :=
      ((leap.mapOutcome fun _ i => pure (.success i .none)).many.sepBy (leaf .letters).many).many
    p.WithoutRefs ∧ p.StepsEnd text ∧ p.Keeps text (Outcome.SucceedsWithin text) ∧
      p.Halts .empty text 0 := by
  intro text leap p
  have law := Outcome.SucceedsWithin.law text
  have hrefs : p.WithoutRefs := by
    simp [p, leap, WithoutRefs, Everywhere, sepBy, sepBy1, cons, keepSecond, map, succeed]
  have hsteps : p.StepsEnd text := by
    simp [p, leap, StepsEnd, Everywhere, sepBy, sepBy1, cons, keepSecond, map, succeed,
      Script.ofAction, Script.ofOutcomes, pure, Script.Whole]
  have hleap : (leap.mapOutcome fun _ i => pure (.success i .none)).Keeps text
      (Outcome.SucceedsWithin text) := by
    refine ⟨fun i o o' _ h => ?_, fun i o ho => ?_⟩
    · cases h
      exact law.absent i
    · intro j v hj
      subst hj
      simp only [Script.ofAction, Script.ofOutcomes, pure, Script.withEvents_nil,
        Script.outcomes, List.mem_cons, List.not_mem_nil, or_false] at ho
      rcases ho with ho | ho
      · cases ho
        exact Int.le_refl _
      · cases ho
  have hp : p.Keeps text (Outcome.SucceedsWithin text) :=
    ⟨trivial, law.keeps_sepBy ⟨trivial, hleap⟩ ⟨trivial, trivial⟩⟩
  exact ⟨hrefs, hsteps, hp, repetition_alone_comes_to_an_end .empty hrefs hsteps hp 0⟩

end Parser

end Backtrack
