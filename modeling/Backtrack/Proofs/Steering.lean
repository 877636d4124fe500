-- The law of values: what a parser makes of values never steers its search. Two parsers
-- that are the same but for their functions of values, and for the values that they make
-- out of nothing, show the same but for values, as long as no function gives up.
import Backtrack.Grammar
import Backtrack.Proofs.Exchange

namespace Backtrack

/-! ## Parsers that differ in values -/

namespace Parser

/-- Functions of values may take the place of each other, whatever they make of values, if
they record nothing but events that are left out of account. All other changes of outcomes
stay. -/
inductive ValueChange (own : Event → Bool) :
    (Outcome → Int → Action Outcome) → (Outcome → Int → Action Outcome) → Prop where
  | onValue {f f' : Value → Action Value} (hf : ∀ v, ∀ e ∈ (f v).events, own e)
    (hf' : ∀ v, ∀ e ∈ (f' v).events, own e) : ValueChange own (onValue f) (onValue f')
  | described (expect : String) : ValueChange own (described expect) (described expect)
  | rewound : ValueChange own rewound rewound

/-- Functions of values and the values of successes that take nothing are exchanged, and
nothing else is. -/
def Exchange.ofValues (own : Event → Bool) : Exchange where
  leaf l l' := l = l' ∨ ∃ v v', l = .succeed v ∧ l' = .succeed v'
  custom step step' := step = step'
  change := ValueChange own

end Parser

/-! ## Parsers that do not give up -/

namespace Parser

/-- The change, which hands an outcome on as it is where it would give up. -/
def handingOn (change : Outcome → Int → Action Outcome) (o : Outcome) (i : Int) : Action Outcome :=
  ⟨(change o i).events, .ok ((change o i).result.toOption.getD o)⟩

/-- The parser with all changes of outcomes handing on what they would give up at. -/
def persevering : Parser → Parser
  | leaf l => leaf l
  | custom step => custom step
  | pair p q => pair p.persevering q.persevering
  | or p q => or p.persevering q.persevering
  | mapOutcome change p => mapOutcome (handingOn change) p.persevering
  | not p => not p.persevering
  | many p => many p.persevering
  | ref handle => ref handle

end Parser

/-- The table with all bodies persevering. -/
def Rules.persevering (rules : Rules) : Rules := ⟨rules.bodies.map (Option.map Parser.persevering)⟩

theorem Rules.body?_persevering (rules : Rules) (handle : Handle) :
    rules.persevering.body? handle = (rules.body? handle).map Parser.persevering := by
  simp only [body?, persevering, Array.getElem?_map]
  rcases rules.bodies[handle]? with _ | _ | body <;> rfl

namespace Parser

/-- In so many pulls no change of an outcome gives up: the run would be the same, and come
just as far, if they all handed the outcome on where they give up. -/
def Perseveres (rules : Rules) (text : Text) (p : Parser) (i : Int) (limit : Nat) : Prop :=
  ∀ shown, p.Shows rules text i limit shown ↔
    p.persevering.Shows rules.persevering text i limit shown

/-! ## The exchange of values -/

/-- The exchange of values where no function gives up. -/
def Exchange.ofGivenValues (own : Event → Bool) : Exchange where
  leaf := (Exchange.ofValues own).leaf
  custom := (Exchange.ofValues own).custom
  change c c' := ∃ d d', ValueChange own d d' ∧ c = handingOn d ∧ c' = handingOn d'

variable {own : Event → Bool} {text : Text} {p q : Parser} {rules rules' : Rules}

theorem Exchanged.persevering (h : p.Exchanged (.ofValues own) q) :
    p.persevering.Exchanged (.ofGivenValues own) q.persevering := by
  induction h with
  | leaf h => exact .leaf h
  | custom h => exact .custom h
  | pair _ _ ihp ihq => exact .pair ihp ihq
  | or _ _ ihp ihq => exact .or ihp ihq
  | mapOutcome h _ ih => exact .mapOutcome ⟨_, _, h, rfl, rfl⟩ ih
  | not _ ih => exact .not ih
  | many _ ih => exact .many ih
  | ref handle => exact .ref handle

end Parser

theorem Rules.Exchanged.persevering {own : Event → Bool} {rules rules' : Rules}
    (h : rules.Exchanged (.ofValues own) rules') :
    rules.persevering.Exchanged (.ofGivenValues own) rules'.persevering := by
  intro handle
  rw [body?_persevering, body?_persevering]
  have hbody := h handle
  generalize rules.body? handle = body at hbody
  generalize rules'.body? handle = body' at hbody
  cases hbody with
  | none => exact .none
  | some hp => exact .some hp.persevering

namespace Parser

variable {own : Event → Bool} {text : Text} {p q : Parser} {rules rules' : Rules}

open Script (Abreast)

theorem handingOn_onValue (f : Value → Action Value) (j : Int) (v : Value) (i : Int) :
    ∃ w, handingOn (onValue f) (.success j v) i = ⟨(f v).events, .ok (.success j w)⟩ := by
  simp only [handingOn, onValue, bind, Action.andThen]
  cases (f v).result with
  | error fault => exact ⟨v, rfl⟩
  | ok w => exact ⟨w, by simp [pure, Except.toOption]⟩

/-- What functions make of a value changes nothing else of an outcome. -/
theorem ValueChange.abreast {c c' : Outcome → Int → Action Outcome} (h : ValueChange own c c')
    {o o' : Outcome} (ho : o.SameButValue o') (i : Int) :
    (handingOn c o i).Abreast own Outcome.SameButValue (handingOn c' o' i) := by
  cases ho with
  | failure index expect =>
    cases h with
    | onValue | rewound => exact .ok rfl (.failure index expect)
    | described expect' => exact .ok rfl (.failure index expect')
  | success index v v' =>
    cases h with
    | described expect => exact .ok rfl (.success index v v')
    | rewound => exact .ok rfl (.success i v v')
    | @onValue f f' hf hf' =>
      obtain ⟨w, hw⟩ := handingOn_onValue f index v i
      obtain ⟨w', hw'⟩ := handingOn_onValue f' index v' i
      rw [hw, hw']
      exact .ok (.of_all_own (hf v) (hf' v')) (.success index w w')

theorem ofGivenValues_fair (own : Event → Bool) (text : Text) :
    (Exchange.ofGivenValues own).Fair own Outcome.SameButValue text where
  outcomes := Outcome.sameButValue_interchangeable
  leaf l l' i hl := by
    rcases hl with rfl | ⟨v, v', rfl, rfl⟩
    · exact .refl Outcome.sameButValue_interchangeable.refl _
    · exact .single (.success i v v')
  called step step' i hstep := by
    cases hstep
    exact ⟨rfl, fun fault => Iff.rfl⟩
  custom step step' i hstep := by
    cases hstep
    exact .refl Outcome.sameButValue_interchangeable.refl _
  change c c' i o o' hc ho := by
    obtain ⟨d, d', hd, rfl, rfl⟩ := hc
    exact hd.abreast ho i

/-! ## The law of values -/

/-- Two parsers that are the same but for their functions of values, for constant values
and for the values of successes that take nothing: if in so many pulls no function gives up
in either of them, then what the one shows, the other shows as well, with the same outcomes
at the same offsets and with the same descriptions, the same events but for those that the
functions record, and the same end, also where that is the refusal of an empty repetition.
Only values differ. -/
theorem values_never_steer_the_search (hrules : rules.Exchanged (.ofValues own) rules')
    (h : p.Exchanged (.ofValues own) q) {i : Int} {limit : Nat}
    (hp : p.Perseveres rules text i limit) (hq : q.Perseveres rules' text i limit) :
    (∀ shown, p.Shows rules text i limit shown →
      ∃ shown', q.Shows rules' text i limit shown' ∧ shown.Agrees own Outcome.SameButValue shown') ∧
    ∀ shown', q.Shows rules' text i limit shown' →
      ∃ shown, p.Shows rules text i limit shown ∧ shown.Agrees own Outcome.SameButValue shown' := by
  have hfair := ofGivenValues_fair own text
  refine ⟨fun shown hshown => ?_, fun shown' hshown => ?_⟩
  · obtain ⟨shown', hshown', hagrees⟩ :=
      h.persevering.shows hfair hrules.persevering ((hp shown).mp hshown)
    exact ⟨shown', (hq shown').mpr hshown', hagrees⟩
  · obtain ⟨shown, hshown', hagrees⟩ :=
      h.persevering.flip.shows hfair.flip hrules.persevering.flip ((hq shown').mp hshown)
    exact ⟨shown, (hp shown).mpr hshown', hagrees.flip⟩

/-- Digits, and then a step function whose success takes nothing, any number of each. -/
def stuck (f : Value → Action Value) (v : Value) : Parser :=
  let idle : Probe :=
    ⟨"p", .lazily [.relative (.failure 0 "more"), .relative (.success 0 .none)]⟩
  ((leaf .digit).map f).many.or ((custom idle.step).keepSecond (succeed v)).many

theorem perseveres_of_take_script {n : Nat} {i : Int} {limit : Nat} {r : Shown}
    (h : (p.script rules text n i).take (limit + 1) = some r)
    (h' : (p.persevering.script rules.persevering text n i).take (limit + 1) = some r) :
    p.Perseveres rules text i (limit + 1) := by
  intro shown
  rw [shows_iff_of_take_script h, shows_iff_of_take_script h']

theorem events_getOrRaise {α : Type} (fault : Fault) (a : Option α) :
    (Action.getOrRaise fault a).events = [] := by
  cases a <;> rfl

/-- Whether digits are counted or looked at, the repetition behind them is refused at the
same place. -/
theorem stuck_at_the_same_place :
    let own : Event → Bool := fun | .mapped _ _ => true | _ => false
    let counted := stuck MapFunction.length.apply .none
    let seen := stuck (MapFunction.tap "t").apply (.str "x")
    let shown : Shown :=
      ⟨[.called "p" 0, .pulled "p" 1, .pulled "p" 2, .logged (.emptyRepetition 0)],
        [.failure 1 "match [0-9]", .success 1 (.list [.int 1]), .success 0 (.list []),
          .failure 0 "more"], .faulted (.emptyRepetition 0)⟩
    Rules.empty.Exchanged (.ofValues own) .empty ∧ counted.Exchanged (.ofValues own) seen ∧
      counted.Perseveres .empty ['7', 'x'] 0 5 ∧ seen.Perseveres .empty ['7', 'x'] 0 5 ∧
      counted.Shows .empty ['7', 'x'] 0 5 shown ∧
      ∃ shown', seen.Shows .empty ['7', 'x'] 0 5 shown' ∧
        shown.Agrees own Outcome.SameButValue shown' := by
  intro own counted seen shown
  have hrules := Rules.empty_exchanged (.ofValues own)
  have hdigit : ((leaf .digit).map MapFunction.length.apply).Exchanged (.ofValues own)
      ((leaf .digit).map (MapFunction.tap "t").apply) := by
    refine .mapOutcome (.onValue (fun v e he => ?_) (fun v e he => ?_)) (.leaf (Or.inl rfl))
    · have hnone : (MapFunction.length.apply v).events = [] := events_getOrRaise _ _
      rw [hnone] at he
      cases he
    · have hone : ((MapFunction.tap "t").apply v).events = [.mapped "t" v] := rfl
      rw [hone, List.mem_singleton] at he
      rw [he]
  have hidle : ∀ step, ((custom step).keepSecond (succeed .none)).Exchanged (.ofValues own)
      ((custom step).keepSecond (succeed (.str "x"))) := by
    intro step
    have hsecond : ValueChange own (onValue fun v => pure v.second) (onValue fun v => pure v.second) :=
      .onValue (fun v e he => by cases he) (fun v e he => by cases he)
    exact .mapOutcome hsecond (.pair (.custom rfl) (.leaf (Or.inr ⟨_, _, rfl, rfl⟩)))
  have h : counted.Exchanged (.ofValues own) seen := .or (.many hdigit) (.many (hidle _))
  have hscript : (counted.script .empty ['7', 'x'] 3 0).take 5 = some shown := rfl
  have hcounted : counted.Perseveres .empty ['7', 'x'] 0 5 := perseveres_of_take_script hscript rfl
  have hseen : seen.Perseveres .empty ['7', 'x'] 0 5 :=
    perseveres_of_take_script (n := 3)
      (r := ⟨.mapped "t" (.str "7") :: shown.events,
        [.failure 1 "match [0-9]", .success 1 (.list [.str "7"]), .success 0 (.list []),
          .failure 0 "more"], .faulted (.emptyRepetition 0)⟩) rfl rfl
  have hshows := shows_of_take_script hscript
  obtain ⟨hthere, _⟩ := values_never_steer_the_search hrules h hcounted hseen
  exact ⟨hrules, h, hcounted, hseen, hshows, hthere _ hshows⟩

end Parser

end Backtrack
