-- The law of range: whatever a run gives, a success, a failure or the refusal of an
-- empty repetition, stands between the start and the end of the text. Offsets are
-- made by leaves alone, and all others hand them on or go back to their start.
import Backtrack.Proofs.Offsets
import Backtrack.Proofs.Stream.Reports

namespace Backtrack

/-! ## Parsers that are told no offset -/

namespace Parser

/-- The changes of outcomes that are told no offset. A function of values may give up
in any way, also with an empty repetition of its own, at one of the given offsets. -/
inductive BlindChange (own : Int → Prop) : (Outcome → Int → Action Outcome) → Prop where
  | onValue {f : Value → Action Value}
    (hf : ∀ v k, (f v).result = .error (.emptyRepetition k) → own k) : BlindChange own (onValue f)
  | described (expect : String) : BlindChange own (described expect)
  | rewound : BlindChange own rewound

/-- The parser is made of leaves, without step functions of the user's, and outcomes
are changed by functions of values, descriptions and looking ahead alone. -/
def Blind (own : Int → Prop) : Parser → Prop :=
  Everywhere fun
    | custom _ => False
    | mapOutcome change _ => BlindChange own change
    | _ => True

end Parser

/-! ## Faults -/

/-- The fault is no empty repetition outside of the range from the start to the end of
the text, other than the given ones. -/
def Fault.Within (own : Int → Prop) (text : Text) (start : Int) (fault : Fault) : Prop :=
  ∀ k, fault = .emptyRepetition k → own k ∨ start ≤ k ∧ k ≤ max start text.length

variable {own : Int → Prop} {text : Text} {rules : Rules}

/-- A fault that is met behind a success is in the range of the start as well. -/
theorem Fault.Within.of_success {i j : Int} {v : Value} {fault : Fault}
    (hj : (Outcome.success j v).Within text i) (h : fault.Within own text j) :
    fault.Within own text i := by
  intro k hk
  simp only [Outcome.Within, Outcome.index] at hj
  rcases h k hk with h | h
  · exact Or.inl h
  · exact Or.inr (by omega)

/-- The only fault of a leaf is a group that is not there. -/
theorem Leaf.fault_of_attempt {l : Leaf} {i : Int} {fault : Fault}
    (h : l.attempt text i = .error fault) : fault = .noSuchGroup := by
  cases l with
  | string literal =>
    rw [attempt] at h
    split at h <;> cases h
  | regexp pattern group =>
    rw [attempt] at h
    split at h <;> cases h
    rfl
  | endOfText =>
    rw [attempt] at h
    split at h <;> cases h
  | succeed value => cases h
  | fail expect => cases h

namespace Parser

variable {p : Parser}

/-- A function that is handed a value can only give up with a fault of its own. -/
theorem fault_of_onValue {f : Value → Action Value} {o : Outcome} {i : Int} {fault : Fault}
    (h : (onValue f o i).result = .error fault) : ∃ v, (f v).result = .error fault := by
  cases o with
  | failure index expect => cases h
  | success j v =>
    simp only [onValue, bind, Action.andThen] at h
    split at h
    · rename_i fault' hf
      cases h
      exact ⟨v, hf⟩
    · cases h

/-- Building a list out of a value and a sequence never refuses a repetition. -/
theorem fault_of_consValues {v : Value} {fault : Fault}
    (h : (consValues v).result = .error fault) : fault = .notIterable v.second := by
  rw [result_consValues] at h
  split at h
  · cases h
    rfl
  · cases h

/-- Progress is refused with the offset at which it was asked for. -/
theorem fault_of_requireProgress {o : Outcome} {i : Int} {fault : Fault}
    (h : (requireProgress o i).result = .error fault) : fault = .emptyRepetition i := by
  cases o with
  | failure index expect => cases h
  | success j v =>
    rw [requireProgress] at h
    split at h
    · cases h
      rfl
    · cases h

theorem BlindChange.fault_within {change : Outcome → Int → Action Outcome}
    (h : BlindChange own change) {o : Outcome} {i j : Int} {fault : Fault}
    (hfault : (change o i).result = .error fault) : fault.Within own text j := by
  intro k hk
  subst hk
  cases h with
  | onValue hf =>
    obtain ⟨v, hv⟩ := fault_of_onValue hfault
    exact Or.inl (hf v k hv)
  | described expect => cases o <;> cases hfault
  | rewound => cases o <;> cases hfault

theorem Blind.keepFirst {q : Parser} (hp : p.Blind own) (hq : q.Blind own) :
    (p.keepFirst q).Blind own := by
  refine ⟨.onValue fun v k hk => ?_, trivial, hp, hq⟩
  cases hk

theorem Blind.cons {q : Parser} (hp : p.Blind own) (hq : q.Blind own) : (p.cons q).Blind own := by
  refine ⟨.onValue fun v k hk => ?_, trivial, hp, hq⟩
  cases fault_of_consValues hk

/-! ## One law for all parsers -/

theorem Blind.keeps (h : p.Blind own) : p.Keeps text (Outcome.Within text) := by
  refine Everywhere.imp (fun q hq => ?_) h
  cases q with
  | custom step => exact hq.elim
  | mapOutcome change q =>
    intro i o o' ho hresult
    have law := Outcome.Within.law text
    cases hq with
    | onValue hf => exact law.of_onValue ho hresult
    | described expect =>
      cases o with
      | success j v => cases hresult; exact ho
      | failure j e => cases hresult; exact law.redescribed expect ho
    | rewound =>
      cases o with
      | success j v => cases hresult; exact law.revalued v (law.absent i)
      | failure j e => cases hresult; exact ho
  | _ => trivial

theorem Blind.outcome_within (hrules : rules.All (Blind own)) (hp : p.Blind own) {n : Nat}
    {i : Int} {o : Outcome} (ho : o ∈ (p.script rules text n i).outcomes) : o.Within text i :=
  (Outcome.Within.law text).of_mem_script (fun handle body hb => (hrules handle body hb).keeps)
    hp.keeps ho

theorem fault_within_repeated {body : Int → Script}
    (houtcomes : ∀ i, ∀ o ∈ (body i).outcomes, o.Within text i)
    (hbody : ∀ i fault, (body i).EndsIn fault → fault.Within own text i) {n : Nat} {i : Int}
    {fault : Fault} (h : (repeated body n i).EndsIn fault) : fault.Within own text i := by
  induction n generalizing i with
  | zero => exact h.elim
  | succ n ih =>
    -- From the outside in: the fault is met by the list that is put together, by the
    -- repetitions behind a success, by the progress that is asked of it, or by the item.
    rcases Script.endsIn_append h with h | h
    · rcases Script.endsIn_change h with h | ⟨o, _, h⟩
      · rcases Script.endsIn_pairWith h with h | ⟨j, v, hj, h⟩
        · rcases Script.endsIn_change h with h | ⟨o, _, h⟩
          · exact hbody i fault h
          · intro k hk
            rw [fault_of_requireProgress h] at hk
            cases hk
            exact Or.inr (by omega)
        · obtain ⟨o, ho, hsame⟩ := Script.mem_outcomes_change hj
          rw [← (result_requireProgress hsame).1] at ho
          exact Fault.Within.of_success (houtcomes i _ ho) (ih h)
      · obtain ⟨v, hv⟩ := fault_of_onValue h
        intro k hk
        rw [fault_of_consValues hv] at hk
        cases hk
    · exact (Script.not_endsIn_single _ h).elim

/-- One level of recursion. -/
theorem Blind.fault_within_scriptWith {recursive : Handle → Int → Script}
    (houtcomes : ∀ handle i, ∀ o ∈ (recursive handle i).outcomes, o.Within text i)
    (hfaults : ∀ handle i fault, (recursive handle i).EndsIn fault → fault.Within own text i)
    {n : Nat} (hp : p.Blind own) {i : Int} {fault : Fault}
    (h : (p.scriptWith text n recursive i).EndsIn fault) : fault.Within own text i := by
  have law := Outcome.Within.law text
  induction p generalizing i fault with
  | leaf l =>
    intro k hk
    rw [Leaf.fault_of_attempt (Script.endsIn_ofResult.mp h)] at hk
    cases hk
  | custom step => exact hp.elim
  | pair p q ihp ihq =>
    rcases Script.endsIn_pairWith h with h | ⟨j, v, hj, h⟩
    · exact ihp hp.2.1 h
    · have hj := law.of_mem_scriptWith houtcomes (Blind.keeps hp.2.1) hj
      exact Fault.Within.of_success hj (ihq hp.2.2 h)
  | or p q ihp ihq =>
    rcases Script.endsIn_append h with h | h
    · exact ihp hp.2.1 h
    · exact ihq hp.2.2 h
  | mapOutcome change p ih =>
    rcases Script.endsIn_change h with h | ⟨o, _, h⟩
    · exact ih hp.2 h
    · exact BlindChange.fault_within hp.1 h
  | not p ih => exact ih hp.2 (Script.endsIn_negate h)
  | many p ih =>
    exact fault_within_repeated
      (fun i o ho => law.of_mem_scriptWith houtcomes (Blind.keeps hp.2) ho)
      (fun i fault hf => ih hp.2 hf) h
  | ref handle => exact hfaults handle i fault h

theorem Blind.fault_within (hrules : rules.All (Blind own)) (hp : p.Blind own) {n : Nat} {i : Int}
    {fault : Fault} (h : (p.script rules text n i).EndsIn fault) : fault.Within own text i := by
  induction n generalizing p i fault with
  | zero =>
    refine fault_within_scriptWith (fun handle i o ho => ?_) (fun handle i fault hf => ?_) hp h
    · cases ho
    · exact hf.elim
  | succ n ih =>
    refine fault_within_scriptWith (fun handle i o ho => ?_) (fun handle i fault hf => ?_) hp h
    · have hhandle : (ref handle).Blind own := trivial
      exact hhandle.outcome_within hrules (n := n + 1) ho
    · cases hb : rules.body? handle with
      | none =>
        rw [hb] at hf
        cases hf
        intro k hk
        cases hk
      | some body =>
        rw [hb] at hf
        exact ih (hrules handle body hb) hf

end Parser

/-! ## The law of range -/

/-- Every offset of the report lies in the text. -/
def Report.Within (text : Text) : Report → Prop
  | success index _ => 0 ≤ index ∧ index ≤ text.length
  | failure errors => ∀ e ∈ errors, 0 ≤ e.index ∧ e.index ≤ text.length

theorem Report.within_ofOutcomes {outcomes : List Outcome}
    (h : ∀ o ∈ outcomes, o.Within text 0) : (Report.ofOutcomes outcomes).Within text := by
  have hrange : ∀ {o : Outcome}, o.Within text 0 → 0 ≤ o.index ∧ o.index ≤ text.length := by
    intro o ho
    simp only [Outcome.Within] at ho
    omega
  induction outcomes with
  | nil =>
    intro e he
    cases he
  | cons o rest ih =>
    have ho := hrange (h o List.mem_cons_self)
    have hrest := ih fun o' ho' => h o' (List.mem_cons_of_mem o ho')
    cases o with
    | success index value => exact ho
    | failure index expect =>
      rw [ofOutcomes]
      cases hr : ofOutcomes rest with
      | success index' value =>
        rw [hr] at hrest
        exact hrest
      | failure errors =>
        rw [hr] at hrest
        intro e he
        rcases List.mem_cons.mp he with rfl | he
        · exact ho
        · exact hrest e he

namespace Parser

variable {p : Parser}

/-- On every text and from every start, also a negative one or one behind the end, each
outcome that a run gives stands between its start and the end of the text, or at a
start that lies behind it. So does the offset of an empty repetition that ends the run,
unless a function of values gave up with it. A parse reports no offset outside of the
text. -/
theorem offsets_stay_in_range (hrules : rules.All (Blind own)) (hp : p.Blind own) (text : Text) :
    (∀ i limit shown, p.Shows rules text i limit shown →
      (∀ o ∈ shown.outcomes, i ≤ o.index ∧ o.index ≤ max i text.length) ∧
      ∀ k, shown.stop = .faulted (.emptyRepetition k) →
        own k ∨ i ≤ k ∧ k ≤ max i text.length) ∧
    ∀ fuel events report, p.parse rules fuel text = some ⟨events, .ok report⟩ →
      report.Within text := by
  refine ⟨fun i limit shown h => ⟨fun o ho => ?_, fun k hk => ?_⟩, fun fuel events report h => ?_⟩
  · obtain ⟨n, ho⟩ := h.mem_script ho
    exact hp.outcome_within hrules ho
  · obtain ⟨n, hn⟩ := h.endsIn_script hk
    exact hp.fault_within hrules hn k rfl
  · obtain ⟨n, outcomes, hread, rfl⟩ := script_of_parse h
    refine Report.within_ofOutcomes fun o ho => ?_
    exact hp.outcome_within hrules (hread.mem ho)

/-- A look ahead whose group is taken, and repetitions of a letter that is only looked
at. -/
def glance : Parser :=
  let pattern : Pattern :=
    { source := "(?=(b))", regex := .ahead (.group 1 (.one (Pattern.between 'b' 'b'))) true, groups := 1 }
  (leaf (.regexp pattern (.number 1))).or (string "b").peek.many

/-- From one character before the end, counted back from it, the group is taken, and
then a repetition is refused where it started. -/
theorem glance_from_a_negative_start :
    Rules.empty.All (Blind fun _ => False) ∧ glance.Blind (fun _ => False) ∧
      glance.Shows .empty ['a', 'b'] (-1) 2
        ⟨[.logged (.emptyRepetition (-1))], [.success 0 (.str "b")],
          .faulted (.emptyRepetition (-1))⟩ ∧
      (Outcome.success 0 (.str "b")).Within ['a', 'b'] (-1) ∧ (-1 : Int) ≤ max (-1) 2 := by
  have hrules : Rules.empty.All (Blind fun _ => False) := Rules.empty_all _
  have hp : glance.Blind (fun _ => False) := ⟨trivial, trivial, trivial, .rewound, trivial⟩
  have hscript : (glance.script .empty ['a', 'b'] 1 (-1)).take 2 =
      some ⟨[.logged (.emptyRepetition (-1))], [.success 0 (.str "b")],
        .faulted (.emptyRepetition (-1))⟩ := rfl
  have hshows := shows_of_take_script hscript
  obtain ⟨houtcomes, hfault⟩ := (offsets_stay_in_range hrules hp ['a', 'b']).1 _ _ _ hshows
  refine ⟨hrules, hp, hshows, houtcomes _ (List.mem_singleton_self _), ?_⟩
  exact ((hfault (-1) rfl).resolve_left id).2

end Parser

end Backtrack
