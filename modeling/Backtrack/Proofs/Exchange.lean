-- The law of exchange: parsers that are put together in the same way, out of parts that
-- are exchanged one for one, show the same if their parts do. What is said of two such
-- parsers is said of their parts alone, and one induction on the parsers carries it.
import Backtrack.Proofs.Parts
import Backtrack.Proofs.Script.Abreast
import Backtrack.Proofs.Stream.Showing

namespace Backtrack

/-! ## Parsers put together in the same way -/

namespace Parser

/-- The leaves, step functions and changes of outcomes that may take the place of others. -/
structure Exchange where
  leaf : Leaf → Leaf → Prop
  custom : (Text → Int → Action Script) → (Text → Int → Action Script) → Prop
  change : (Outcome → Int → Action Outcome) → (Outcome → Int → Action Outcome) → Prop

/-- The same exchange the other way round. -/
def Exchange.flip (X : Exchange) : Exchange where
  leaf l' l := X.leaf l l'
  custom step' step := X.custom step step'
  change c' c := X.change c c'

/-- The second parser is the first with its parts exchanged. -/
inductive Exchanged (X : Exchange) : Parser → Parser → Prop where
  | leaf {l l' : Leaf} : X.leaf l l' → Exchanged X (leaf l) (leaf l')
  | custom {step step' : Text → Int → Action Script} : X.custom step step' →
    Exchanged X (custom step) (custom step')
  | pair {p p' q q' : Parser} : Exchanged X p p' → Exchanged X q q' →
    Exchanged X (pair p q) (pair p' q')
  | or {p p' q q' : Parser} : Exchanged X p p' → Exchanged X q q' → Exchanged X (or p q) (or p' q')
  | mapOutcome {c c' : Outcome → Int → Action Outcome} {p p' : Parser} : X.change c c' →
    Exchanged X p p' → Exchanged X (mapOutcome c p) (mapOutcome c' p')
  | not {p p' : Parser} : Exchanged X p p' → Exchanged X (not p) (not p')
  | many {p p' : Parser} : Exchanged X p p' → Exchanged X (many p) (many p')
  | ref (handle : Handle) : Exchanged X (ref handle) (ref handle)

variable {X : Exchange} {p p' : Parser}

theorem Exchanged.flip (h : p.Exchanged X p') : p'.Exchanged X.flip p := by
  induction h with
  | leaf h => exact .leaf h
  | custom h => exact .custom h
  | pair _ _ ihp ihq => exact .pair ihp ihq
  | or _ _ ihp ihq => exact .or ihp ihq
  | mapOutcome h _ ih => exact .mapOutcome h ih
  | not _ ih => exact .not ih
  | many _ ih => exact .many ih
  | ref handle => exact .ref handle

end Parser

/-- Every body of the second table is that of the first with its parts exchanged. -/
def Rules.Exchanged (X : Parser.Exchange) (rules rules' : Rules) : Prop :=
  ∀ handle, Option.Rel (Parser.Exchanged X) (rules.body? handle) (rules'.body? handle)

theorem Rules.Exchanged.flip {X : Parser.Exchange} {rules rules' : Rules}
    (h : rules.Exchanged X rules') : rules'.Exchanged X.flip rules := by
  intro handle
  have hbody := h handle
  generalize rules.body? handle = body at hbody
  generalize rules'.body? handle = body' at hbody
  cases hbody with
  | none => exact .none
  | some hp => exact .some hp.flip

theorem Rules.empty_exchanged (X : Parser.Exchange) : empty.Exchanged X empty := by
  intro handle
  rw [body?_eq_none (Nat.zero_le handle)]
  exact .none

/-! ## Outcomes that may stand for each other -/

/-- Outcomes that may stand for each other differ in their values only, and they still may
where values are put together. -/
structure Outcome.Interchangeable (same : Outcome → Outcome → Prop) : Prop where
  refl : ∀ o, same o o
  sameButValue : ∀ o o', same o o' → o.SameButValue o'
  paired : ∀ j v v' o o', same (.success j v) (.success j v') → same o o' →
    same (o.pairedWith v) (o'.pairedWith v')
  gathered : ∀ j v v' vs vs',
    same (.success j (.pair v (.list vs))) (.success j (.pair v' (.list vs'))) →
    same (.success j (.list (v :: vs))) (.success j (.list (v' :: vs')))

theorem Outcome.eq_interchangeable : Interchangeable (· = ·) where
  refl _ := rfl
  sameButValue o _ h := by
    subst h
    cases o with
    | success index value => exact .success index value value
    | failure index expect => exact .failure index expect
  paired j v v' o o' hv ho := by
    cases hv
    rw [ho]
  gathered j v v' vs vs' h := by
    cases h
    rfl

theorem Outcome.sameButValue_interchangeable : Interchangeable SameButValue where
  refl o := by
    cases o with
    | success index value => exact .success index value value
    | failure index expect => exact .failure index expect
  sameButValue _ _ h := h
  paired j v v' o o' hv ho := by
    cases ho with
    | success index value value' => exact .success index _ _
    | failure index expect => exact .failure index expect
  gathered j v v' vs vs' _ := .success j _ _

theorem Outcome.Interchangeable.flip {same : Outcome → Outcome → Prop} (h : Interchangeable same) :
    Interchangeable fun o' o => same o o' where
  refl := h.refl
  sameButValue o o' ho := (h.sameButValue o' o ho).symm
  paired j v v' o o' := h.paired j v' v o' o
  gathered j v v' vs vs' := h.gathered j v' v vs' vs

variable {own : Event → Bool} {same : Outcome → Outcome → Prop} {text : Text}

namespace Script

variable {s s' : Script}

theorem Abreast.pairWith (hsame : Outcome.Interchangeable same) {second second' : Int → Script}
    (hs : Abreast own same s s') (hsecond : ∀ j, Abreast own same (second j) (second' j)) :
    Abreast own same (s.pairWith second) (s'.pairWith second') := by
  refine hs.expand fun o o' ho => ?_
  cases hsame.sameButValue o o' ho with
  | failure index expect => exact .single ho
  | success index value value' =>
    exact (hsecond index).expand fun o o' ho' => .single (hsame.paired index _ _ o o' ho ho')

end Script

namespace Parser

/-! ## Repetitions -/

/-- Outcomes that may stand for each other, with lists for the values of successes. -/
inductive OfLists (same : Outcome → Outcome → Prop) : Outcome → Outcome → Prop where
  | failure (index : Int) (expect : String) : OfLists same (.failure index expect) (.failure index expect)
  | success {j : Int} {vs vs' : List Value} :
    same (.success j (.list vs)) (.success j (.list vs')) →
    OfLists same (.success j (.list vs)) (.success j (.list vs'))

/-- Outcomes that may stand for each other, with a value and a list for the value of a
success. -/
inductive OfPairs (same : Outcome → Outcome → Prop) : Outcome → Outcome → Prop where
  | failure (index : Int) (expect : String) : OfPairs same (.failure index expect) (.failure index expect)
  | success {j : Int} {v v' : Value} {vs vs' : List Value} :
    same (.success j (.pair v (.list vs))) (.success j (.pair v' (.list vs'))) →
    OfPairs same (.success j (.pair v (.list vs))) (.success j (.pair v' (.list vs')))

open Script (Abreast)

theorem abreast_requireProgress (hsame : Outcome.Interchangeable same) {o o' : Outcome} (ho : same o o')
    (i : Int) : (requireProgress o i).Abreast own same (requireProgress o' i) := by
  cases hsame.sameButValue o o' ho with
  | failure index expect => exact .ok (.refl _) ho
  | success index value value' =>
    simp only [requireProgress]
    split
    · exact .error (.refl _) _
    · exact .ok (.refl _) ho

/-- Repetitions put a value before a list, which never fails. -/
theorem abreast_consValues (hsame : Outcome.Interchangeable same) {o o' : Outcome}
    (ho : OfPairs same o o') (i : Int) :
    (onValue consValues o i).Abreast own (OfLists same) (onValue consValues o' i) := by
  cases ho with
  | failure index expect => exact .ok (.refl []) (.failure index expect)
  | success h => exact .ok (.refl []) (.success (hsame.gathered _ _ _ _ _ h))

theorem abreast_pairWith_lists (hsame : Outcome.Interchangeable same) {s s' : Script}
    {second second' : Int → Script} (hs : Abreast own same s s')
    (hsecond : ∀ j, Abreast own (OfLists same) (second j) (second' j)) :
    Abreast own (OfPairs same) (s.pairWith second) (s'.pairWith second') := by
  refine hs.expand fun o o' ho => ?_
  cases hsame.sameButValue o o' ho with
  | failure index expect => exact .single (.failure index expect)
  | success index value value' =>
    refine (hsecond index).expand fun o o' ho' => ?_
    cases ho' with
    | failure index expect => exact .single (.failure index expect)
    | success h => exact .single (.success (hsame.paired index _ _ _ _ ho h))

theorem abreast_repeated (hsame : Outcome.Interchangeable same) {body body' : Int → Script}
    (hbody : ∀ i, Abreast own same (body i) (body' i)) (n : Nat) (i : Int) :
    Abreast own (OfLists same) (repeated body n i) (repeated body' n i) := by
  induction n generalizing i with
  | zero => exact .unread
  | succ n ih =>
    have hone : Abreast own same ((body i).change (requireProgress · i))
        ((body' i).change (requireProgress · i)) :=
      (hbody i).change fun o o' ho => abreast_requireProgress hsame ho i
    have hpairs := abreast_pairWith_lists hsame hone ih
    have hmore : Abreast own (OfLists same) (Script.change (onValue consValues · i) _)
        (Script.change (onValue consValues · i) _) :=
      hpairs.change fun o o' ho => abreast_consValues hsame ho i
    exact hmore.append (.single (.success (hsame.refl _)))

/-! ## Scripts -/

/-- What the step calls record is the same, and so is whether they fault, and with what. -/
def CalledAlike {α : Type} (own : Event → Bool) (x x' : Action α) : Prop :=
  Event.SameTrace own x.events x'.events ∧
    ∀ fault, x.result = .error fault ↔ x'.result = .error fault

theorem CalledAlike.symm {α : Type} {x x' : Action α} (h : CalledAlike own x x') :
    CalledAlike own x' x := ⟨h.1.symm, fun fault => (h.2 fault).symm⟩

/-- Parts that are exchanged make attempts that may stand for each other. -/
structure Exchange.Fair (X : Exchange) (own : Event → Bool) (same : Outcome → Outcome → Prop)
    (text : Text) : Prop where
  outcomes : Outcome.Interchangeable same
  leaf : ∀ l l' i, X.leaf l l' → Abreast own same (.ofResult (l.attempt text i)) (.ofResult (l'.attempt text i))
  called : ∀ step step' i, X.custom step step' → CalledAlike own (step text i) (step' text i)
  custom : ∀ step step' i, X.custom step step' →
    Abreast own same (.ofAction (step text i)) (.ofAction (step' text i))
  change : ∀ c c' i o o', X.change c c' → same o o' → (c o i).Abreast own same (c' o' i)

theorem Exchange.Fair.flip {X : Exchange} (h : X.Fair own same text) :
    X.flip.Fair own (fun o' o => same o o') text where
  outcomes := h.outcomes.flip
  leaf l l' i hl := (h.leaf l' l i hl).flip
  called step step' i hstep := (h.called step' step i hstep).symm
  custom step step' i hstep := (h.custom step' step i hstep).flip
  change c c' i o o' hc ho := (h.change c' c i o' o hc ho).flip

variable {X : Exchange} {rules rules' : Rules} {p p' : Parser}

/-- One level of recursion. -/
theorem Exchanged.abreast_scriptWith (hX : X.Fair own same text) {n : Nat}
    {recursive recursive' : Handle → Int → Script}
    (hr : ∀ handle i, Abreast own same (recursive handle i) (recursive' handle i))
    (hp : p.Exchanged X p') (i : Int) :
    Abreast own same (p.scriptWith text n recursive i) (p'.scriptWith text n recursive' i) := by
  induction hp generalizing i with
  | leaf h => exact hX.leaf _ _ i h
  | custom h => exact hX.custom _ _ i h
  | pair _ _ ihp ihq => exact (ihp i).pairWith hX.outcomes ihq
  | or _ _ ihp ihq => exact (ihp i).append (ihq i)
  | mapOutcome h _ ih => exact (ih i).change fun o o' ho => hX.change _ _ i o o' h ho
  | not _ ih => exact (ih i).negate hX.outcomes.sameButValue hX.outcomes.refl text i
  | many _ ih =>
    refine (abreast_repeated hX.outcomes ih n i).imp fun o o' ho => ?_
    cases ho with
    | failure index expect => exact hX.outcomes.refl _
    | success h => exact h
  | ref handle => exact hr handle i

/-- The script of a parser goes on abreast with that of a parser whose parts are exchanged. -/
theorem Exchanged.abreast_script (hX : X.Fair own same text) (hrules : rules.Exchanged X rules')
    (hp : p.Exchanged X p') (n : Nat) (i : Int) :
    Abreast own same (p.script rules text n i) (p'.script rules' text n i) := by
  induction n generalizing p p' i with
  | zero => exact hp.abreast_scriptWith hX (fun _ _ => .unread) i
  | succ n ih =>
    refine hp.abreast_scriptWith hX (fun handle i => ?_) i
    have hbody := hrules handle
    generalize rules.body? handle = body at hbody
    generalize rules'.body? handle = body' at hbody
    cases hbody with
    | none => exact .raised .undefinedHandle
    | some hbody => exact ih hbody i

/-! ## Step calls -/

theorem start_custom (step : Text → Int → Action Script) (n : Nat) (i : Int) :
    (custom step).start rules text (n + 1) i =
      some ⟨(step text i).events, (step text i).result.map .items⟩ := by
  rcases hstep : step text i with ⟨events, fault | s⟩
  · exact Search.bind_error (congrArg some hstep) _
  · exact Search.bind_answer (congrArg some hstep) rfl

theorem exists_of_rel_some {α β : Type} {R : α → β → Prop} {a : α} {y : Option β}
    (h : Option.Rel R (some a) y) : ∃ b, y = some b ∧ R a b := by
  cases h with
  | some h => exact ⟨_, rfl, h⟩

theorem Exchanged.called (hX : X.Fair own same text) (hrules : rules.Exchanged X rules')
    (hp : p.Exchanged X p') (fuel : Nat) (i : Int) :
    Option.Rel (CalledAlike own) (p.start rules text fuel i) (p'.start rules' text fuel i) := by
  induction fuel generalizing p p' with
  | zero => exact .none
  | succ fuel ih =>
    cases hp with
    | custom h =>
      rw [start_custom, start_custom]
      obtain ⟨hevents, hfaults⟩ := hX.called _ _ i h
      have herror : ∀ (x : Except Fault Script) fault,
          x.map Stream.items = .error fault ↔ x = .error fault := by
        rintro (_ | _) fault <;> simp [Except.map]
      refine .some ⟨hevents, fun fault => ?_⟩
      simp only [herror, hfaults]
    | ref handle =>
      have hbody := hrules handle
      simp only [start]
      generalize rules.body? handle = body at hbody
      generalize rules'.body? handle = body' at hbody
      cases hbody with
      | none => exact .some ⟨rfl, fun fault => Iff.rfl⟩
      | some hbody => exact ih hbody
    | leaf | pair | or | mapOutcome | not | many =>
      refine .some ⟨rfl, fun fault => ?_⟩
      constructor <;> intro h <;> cases h

/-! ## Runs -/

variable {i : Int} {limit : Nat} {shown : Shown}

/-- What a parser shows, a parser whose parts are exchanged shows too. -/
theorem Exchanged.shows (hX : X.Fair own same text) (hrules : rules.Exchanged X rules')
    (hp : p.Exchanged X p') (h : p.Shows rules text i limit shown) :
    ∃ shown', p'.Shows rules' text i limit shown' ∧ shown.Agrees own same shown' := by
  cases limit with
  | zero =>
    -- Nothing is pulled, so all that is shown is the step call.
    cases h with
    | @refused fuel events fault hs =>
      have hcalled := hp.called hX hrules fuel i
      rw [hs] at hcalled
      obtain ⟨a', hs', hevents, hfaults⟩ := exists_of_rel_some hcalled
      obtain ⟨events', result'⟩ := a'
      cases (hfaults fault).mp rfl
      exact ⟨_, .refused hs', hevents, .nil, rfl⟩
    | @running fuel events s r hs hr =>
      have hcalled := hp.called hX hrules fuel i
      rw [hs] at hcalled
      obtain ⟨a', hs', hevents, hfaults⟩ := exists_of_rel_some hcalled
      obtain ⟨events', fault | s'⟩ := a'
      · cases (hfaults fault).mpr rfl
      · cases hr
        refine ⟨_, .running hs' (r := ⟨[], [], .satisfied, s'⟩) rfl, ?_, .nil, rfl⟩
        exact hevents.append (.refl [])
  | succ limit =>
    obtain ⟨n, hn⟩ := h.take_script
    obtain ⟨shown', hn', hagrees⟩ := (hp.abreast_script hX hrules n i).read (fun _ _ _ => rfl) hn
    exact ⟨shown', shows_of_take_script hn', hagrees⟩

end Parser

end Backtrack
