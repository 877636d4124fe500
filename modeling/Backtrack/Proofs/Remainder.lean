-- The law of the remainder: a parser reads only what is left of the text from its start
-- on. Two runs are compared, one on a text and one on the same text behind other
-- characters: they go on together, with all offsets moved by the number of these.
import Backtrack.Proofs.Range
import Backtrack.Proofs.Script.Likeness

namespace Backtrack

/-! ## Texts behind other characters -/

namespace Text

variable {before text : Text} {i j : Int}

theorem place_append (hi : 0 ≤ i) :
    (before ++ text).place (i + before.length) = before.length + text.place i := by
  simp only [place, List.length_append]
  split <;> split <;> omega

theorem remainder_append (hi : 0 ≤ i) :
    (before ++ text).remainder (i + before.length) = text.remainder i := by
  rw [remainder, remainder, place_append hi, List.drop_length_add_append]

theorem between_append (hi : 0 ≤ i) (hj : 0 ≤ j) :
    (before ++ text).between (i + before.length) (j + before.length) = text.between i j := by
  rw [between, between, place_append hi, place_append hj, List.take_length_add_append,
    List.drop_length_add_append]

theorem holds_append {literal : Text} (hi : 0 ≤ i) :
    (before ++ text).holds literal (i + before.length) = text.holds literal i := by
  have hend : (i + before.length ≤ (before ++ text).length) ↔ i ≤ text.length := by
    rw [List.length_append]
    omega
  simp only [holds, remainder_append hi, hend]

end Text

/-! ## Runs moved by a distance -/

/-- Outcomes and refused repetitions are moved by a distance, save those repetitions
that a function of values refused itself. -/
def Likeness.moved (own : Int → Prop) (distance : Int) : Likeness where
  event e e' := e' = e ∨
    ∃ k, e = .logged (.emptyRepetition k) ∧ e' = .logged (.emptyRepetition (k + distance))
  outcome o o' := o' = o.moved distance
  fault f f' := (∃ k, f = .emptyRepetition k ∧ f' = .emptyRepetition (k + distance)) ∨
    f' = f ∧ ∀ k, f = .emptyRepetition k → own k

variable {own : Int → Prop} {before text : Text} {rules : Rules} {i d : Int}

theorem Likeness.moved_events_refl (events : List Event) :
    List.Forall₂ (moved own d).event events events := by
  induction events with
  | nil => exact .nil
  | cons e events ih => exact .cons (Or.inl rfl) ih

theorem Likeness.Runs.outcomes_moved {r r' : Shown} (h : (Likeness.moved own d).Runs r r') :
    r'.outcomes = r.outcomes.map (Outcome.moved d) := by
  have houtcomes := h.outcomes
  generalize r.outcomes = os at houtcomes
  generalize r'.outcomes = os' at houtcomes
  induction houtcomes with
  | nil => rfl
  | cons ho _ ih => rw [List.map_cons, ih, ho]

/-- Leaves read what is left of the text. -/
theorem Leaf.attempt_append (l : Leaf) (hi : 0 ≤ i) :
    (Likeness.moved own before.length).Results (l.attempt text i)
      (l.attempt (before ++ text) (i + before.length)) := by
  cases l with
  | string literal =>
    rw [attempt, attempt, Text.holds_append hi]
    split
    · refine .ok ?_
      simp only [Likeness.moved, Outcome.moved]
      congr 1
      omega
    · exact .ok rfl
  | regexp pattern group =>
    rw [attempt, attempt, Text.remainder_append hi]
    split
    · refine .ok ?_
      simp only [Likeness.moved, Outcome.moved]
      congr 1
      omega
    · exact .ok rfl
    · exact .ok rfl
    · refine .error (Or.inr ⟨rfl, fun k hk => ?_⟩)
      cases hk
  | endOfText =>
    have hend : (i + before.length = ((before ++ text).length : Int)) ↔ i = text.length := by
      rw [List.length_append]
      omega
    simp only [attempt, hend]
    split
    · exact .ok rfl
    · exact .ok rfl
  | succeed value => exact .ok rfl
  | fail expect => exact .ok rfl

namespace Script

theorem Alike.pairWith_moved {s s' : Script} {second second' : Int → Script}
    (hs : Alike (.moved own d) s s')
    (hsecond : ∀ j v, .success j v ∈ s.outcomes → Alike (.moved own d) (second j) (second' (j + d))) :
    Alike (.moved own d) (s.pairWith second) (s'.pairWith second') := by
  refine hs.expand fun o hmem o' ho => ?_
  subst ho
  cases o with
  | failure index expect => exact .single rfl
  | success j v =>
    refine (hsecond j v hmem).expand fun o _ o' ho => ?_
    subst ho
    cases o <;> exact .single rfl

theorem Alike.change_moved {s s' : Script} {f f' : Outcome → Action Outcome}
    (hs : Alike (.moved own d) s s')
    (hf : ∀ o, (Likeness.moved own d).Actions (f o) (f' (o.moved d))) :
    Alike (.moved own d) (s.change f) (s'.change f') := by
  refine hs.change fun o _ o' ho => ?_
  subst ho
  exact hf o

/-- What an absent parser quotes stands behind its start. -/
theorem Alike.negate_moved {s s' : Script} (hi : 0 ≤ i)
    (hs : Alike (.moved own before.length) s s') (hstops : ∀ o ∈ s.outcomes, 0 ≤ o.index) :
    Alike (.moved own before.length) (s.negate text i)
      (s'.negate (before ++ text) (i + before.length)) := by
  unfold negate
  induction hs with
  | done => exact .single rfl
  | raised h => exact .raised h
  | unread => exact .unread
  | event he _ ih => exact .event he (ih hstops)
  | @outcome o o' s s' ho _ ih =>
    have hrest := ih fun o hmem => hstops o (List.mem_cons_of_mem _ hmem)
    subst ho
    cases o with
    | failure index expect => exact hrest
    | success j v =>
      have hj : 0 ≤ j := hstops _ List.mem_cons_self
      refine .single ?_
      simp only [Parser.presence, Text.between_append hi hj]
      rfl

end Script

namespace Parser

open Script (Alike)

variable {p : Parser}

/-! ## What becomes of one outcome -/

theorem onValue_moved {f : Value → Action Value}
    (hf : ∀ v k, (f v).result = .error (.emptyRepetition k) → own k) (o : Outcome) (i : Int) :
    (Likeness.moved own d).Actions (onValue f o i) (onValue f (o.moved d) (i + d)) := by
  cases o with
  | failure index expect => exact ⟨.nil, .ok rfl⟩
  | success j v =>
    have hown := hf v
    simp only [onValue, Outcome.moved, bind, Action.andThen]
    cases hv : (f v).result with
    | error fault =>
      refine ⟨Likeness.moved_events_refl _, .error (Or.inr ⟨rfl, fun k hk => ?_⟩)⟩
      exact hown k (hv.trans (congrArg _ hk))
    | ok w => exact ⟨Likeness.moved_events_refl _, .ok rfl⟩

theorem BlindChange.moved {change : Outcome → Int → Action Outcome} (h : BlindChange own change)
    (o : Outcome) (i : Int) :
    (Likeness.moved own d).Actions (change o i) (change (o.moved d) (i + d)) := by
  cases h with
  | onValue hf => exact onValue_moved hf o i
  | described expect => cases o <;> exact ⟨.nil, .ok rfl⟩
  | rewound => cases o <;> exact ⟨.nil, .ok rfl⟩

theorem requireProgress_moved (o : Outcome) (i : Int) :
    (Likeness.moved own d).Actions (requireProgress o i) (requireProgress (o.moved d) (i + d)) := by
  cases o with
  | failure index expect => exact ⟨.nil, .ok rfl⟩
  | success j v =>
    have hsame : j + d ≤ i + d ↔ j ≤ i := by omega
    simp only [requireProgress, Outcome.moved, hsame]
    split
    · exact ⟨.cons (Or.inr ⟨i, rfl, rfl⟩) .nil, .error (Or.inl ⟨i, rfl, rfl⟩)⟩
    · exact ⟨.nil, .ok rfl⟩

/-! ## Parsers -/

theorem alike_repeated {body body' : Int → Script}
    (hbody : ∀ i, 0 ≤ i → Alike (.moved own d) (body i) (body' (i + d)))
    (hstops : ∀ i, 0 ≤ i → ∀ o ∈ (body i).outcomes, 0 ≤ o.index) (n : Nat) (hi : 0 ≤ i) :
    Alike (.moved own d) (repeated body n i) (repeated body' n (i + d)) := by
  induction n generalizing i with
  | zero => exact .unread
  | succ n ih =>
    have hone : Alike (.moved own d) ((body i).change (requireProgress · i))
        ((body' (i + d)).change (requireProgress · (i + d))) :=
      (hbody i hi).change_moved fun o => requireProgress_moved o i
    have hpairs : Alike (.moved own d)
        (((body i).change (requireProgress · i)).pairWith (repeated body n))
        (((body' (i + d)).change (requireProgress · (i + d))).pairWith (repeated body' n)) := by
      refine hone.pairWith_moved fun j v hj => ?_
      obtain ⟨o, ho, hsame⟩ := Script.mem_outcomes_change hj
      rw [← (result_requireProgress hsame).1] at ho
      exact ih (hstops i hi _ ho)
    have hcons : ∀ v k, (consValues v).result = .error (.emptyRepetition k) → own k := by
      intro v k hk
      cases fault_of_consValues hk
    have hmore : Alike (.moved own d) (Script.change (onValue consValues · i) _)
        (Script.change (onValue consValues · (i + d)) _) :=
      hpairs.change_moved fun o => onValue_moved hcons o i
    exact hmore.append (.single rfl)

/-- One level of recursion. -/
theorem alike_scriptWith {n : Nat} {recursive recursive' : Handle → Int → Script}
    (hr : ∀ handle i, 0 ≤ i →
      Alike (.moved own before.length) (recursive handle i) (recursive' handle (i + before.length)))
    (hwithin : ∀ handle i, ∀ o ∈ (recursive handle i).outcomes, o.Within text i)
    (hp : p.Blind own) (hi : 0 ≤ i) :
    Alike (.moved own before.length) (p.scriptWith text n recursive i)
      (p.scriptWith (before ++ text) n recursive' (i + before.length)) := by
  -- The texts are alike from non-negative offsets on only, and no success leads out of them.
  have hstops : ∀ {q : Parser}, q.Blind own → ∀ i : Int, 0 ≤ i →
      ∀ o ∈ (q.scriptWith text n recursive i).outcomes, 0 ≤ o.index := by
    intro q hq i hi o ho
    have h := (Outcome.Within.law text).of_mem_scriptWith hwithin hq.keeps ho
    exact Int.le_trans hi h.1
  induction p generalizing i with
  | leaf l => exact .ofResult (l.attempt_append hi)
  | custom step => exact hp.elim
  | pair p q ihp ihq =>
    refine (ihp hp.2.1 hi).pairWith_moved fun j v hj => ihq hp.2.2 ?_
    exact hstops hp.2.1 i hi _ hj
  | or p q ihp ihq => exact (ihp hp.2.1 hi).append (ihq hp.2.2 hi)
  | mapOutcome change p ih => exact (ih hp.2 hi).change_moved fun o => BlindChange.moved hp.1 o i
  | not p ih => exact (ih hp.2 hi).negate_moved hi (hstops hp.2 i hi)
  | many p ih => exact alike_repeated (fun i hi => ih hp.2 hi) (hstops hp.2) n hi
  | ref handle => exact hr handle i hi

/-- The script of a parser is moved with the text. -/
theorem alike_script (hrules : rules.All (Blind own)) (hp : p.Blind own) (before text : Text)
    (n : Nat) (hi : 0 ≤ i) :
    Alike (.moved own before.length) (p.script rules text n i)
      (p.script rules (before ++ text) n (i + before.length)) := by
  induction n generalizing p i with
  | zero => exact alike_scriptWith (fun _ _ _ => .unread) (fun _ _ o ho => by cases ho) hp hi
  | succ n ih =>
    refine alike_scriptWith (fun handle i hi => ?_) (fun handle i o ho => ?_) hp hi
    · cases hb : rules.body? handle with
      | none =>
        refine .raised (Or.inr ⟨rfl, fun k hk => ?_⟩)
        cases hk
      | some body => exact ih (hrules handle body hb) hi
    · have hhandle : (ref handle).Blind own := trivial
      exact hhandle.outcome_within hrules (n := n + 1) ho

/-! ## The law of the remainder -/

/-- A run on a text and a run from the same place of the text behind other characters
show the same, outcome by outcome: values and descriptions are the same, also the text
that an absent parser quotes, and all offsets are greater by the number of these
characters. If the one ends in a fault, so does the other, and it is the same fault, or
the refusal of an empty repetition at the moved offset. -/
theorem only_the_remainder_is_read (hrules : rules.All (Blind own)) (hp : p.Blind own)
    (before text : Text) {i : Int} (hi : 0 ≤ i) (limit : Nat) :
    (∀ shown, p.Shows rules text i (limit + 1) shown →
      ∃ shown', p.Shows rules (before ++ text) (i + before.length) (limit + 1) shown' ∧
        (Likeness.moved own before.length).Runs shown shown') ∧
    ∀ shown', p.Shows rules (before ++ text) (i + before.length) (limit + 1) shown' →
      ∃ shown, p.Shows rules text i (limit + 1) shown ∧
        (Likeness.moved own before.length).Runs shown shown' := by
  refine ⟨fun shown h => ?_, fun shown' h => ?_⟩
  · obtain ⟨n, hn⟩ := h.take_script
    obtain ⟨shown', hn', hruns⟩ := (alike_script hrules hp before text n hi).take hn
    exact ⟨shown', shows_of_take_script hn', hruns⟩
  · obtain ⟨n, hn'⟩ := h.take_script
    obtain ⟨shown, hn, hruns⟩ := (alike_script hrules hp before text n hi).flip.take hn'
    exact ⟨shown, shows_of_take_script hn, hruns.flip⟩

/-- A letter at the start of what is left, and any number of another letter, where a
third one does not follow. -/
def fenced : Parser :=
  let pattern : Pattern :=
    { source := "^a", regex := .seq (.anchor .textStart) (.one (Pattern.between 'a' 'a')) }
  ((leaf (.ofPattern pattern)).cons (string "b").many).notFollowedBy (string "c")

theorem fenced_behind_other_characters :
    Rules.empty.All (Blind fun _ => False) ∧ fenced.Blind (fun _ => False) ∧
      fenced.Shows .empty ['a', 'b', 'c'] 0 4
        ⟨[], [.failure 2 "string b", .failure 2 "not string c", .success 1 (.list [.str "a"])],
          .exhausted⟩ ∧
      ∃ shown', fenced.Shows .empty (['x', 'a'] ++ ['a', 'b', 'c']) 2 4 shown' ∧
        shown'.outcomes =
          [.failure 4 "string b", .failure 4 "not string c", .success 3 (.list [.str "a"])] := by
  have hrules : Rules.empty.All (Blind fun _ => False) := Rules.empty_all _
  have hp : fenced.Blind (fun _ => False) :=
    Blind.keepFirst (Blind.cons trivial ⟨trivial, trivial⟩) ⟨trivial, trivial⟩
  have hscript : (fenced.script .empty ['a', 'b', 'c'] 4 0).take 4 = some
      ⟨[], [.failure 2 "string b", .failure 2 "not string c", .success 1 (.list [.str "a"])],
        .exhausted⟩ := rfl
  have hshows := shows_of_take_script hscript
  obtain ⟨shown', hshows', hruns⟩ :=
    (only_the_remainder_is_read hrules hp ['x', 'a'] ['a', 'b', 'c'] (Int.le_refl 0) 3).1 _ hshows
  exact ⟨hrules, hp, hshows, shown', hshows', hruns.outcomes_moved⟩

end Parser

end Backtrack
