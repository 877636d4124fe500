-- What is in a script: its outcomes, whether it is known to its end, and what
-- reading it up to some outcome shows. Each way of putting scripts together has
-- its laws here, so that nothing below looks into a script again.
import Backtrack.Stream
import Backtrack.Parser.Script

namespace Backtrack

/-- What reading shows: the events, the outcomes, and why it stopped. -/
structure Shown where
  events : List Event
  outcomes : List Outcome
  stop : Stream.Stop

namespace Script

/-! ## The contents of a script -/

/-- The outcomes of a script in their order. -/
def outcomes : Script → List Outcome
  | done | raised _ | unread => []
  | event _ rest => rest.outcomes
  | outcome o rest => o :: rest.outcomes

/-- The script is known to its end. -/
def Whole : Script → Prop
  | done | raised _ => True
  | unread => False
  | event _ rest | outcome _ rest => rest.Whole

/-- The script is known to its end, and the end is no fault. -/
def Unbroken : Script → Prop
  | done => True
  | raised _ | unread => False
  | event _ rest | outcome _ rest => rest.Unbroken

instance decidableUnbroken : (s : Script) → Decidable s.Unbroken
  | done => .isTrue trivial
  | raised _ | unread => .isFalse id
  | event _ rest | outcome _ rest => decidableUnbroken rest

theorem Unbroken.whole {s : Script} (h : s.Unbroken) : s.Whole := by
  induction s with
  | done => exact h
  | raised | unread => exact h.elim
  | event e rest ih | outcome o rest ih => exact ih h

@[simp] theorem outcomes_single (o : Outcome) : (single o).outcomes = [o] := rfl

theorem whole_single (o : Outcome) : (single o).Whole := trivial

theorem single_expand (o : Outcome) (f : Outcome → Script) : (single o).expand f = f o := append_done _

theorem unbroken_ofOutcomes (outcomes : List Outcome) : (ofOutcomes outcomes).Unbroken := by
  induction outcomes with
  | nil => trivial
  | cons o outcomes ih => exact ih

theorem outcomes_ofOutcomes (outcomes : List Outcome) :
    (ofOutcomes outcomes).outcomes = outcomes := by
  induction outcomes with
  | nil => rfl
  | cons o outcomes ih => exact congrArg (o :: ·) ih

theorem whole_ofResult (x : Except Fault Outcome) : (ofResult x).Whole := by
  cases x <;> trivial

theorem mem_outcomes_ofResult {x : Except Fault Outcome} {o : Outcome} :
    o ∈ (ofResult x).outcomes ↔ x = .ok o := by
  cases x <;> simp [ofResult, outcomes, eq_comm]

/-! ## Events before a script -/

@[simp] theorem withEvents_nil (s : Script) : withEvents [] s = s := rfl

@[simp] theorem withEvents_cons (e : Event) (events : List Event) (s : Script) :
    withEvents (e :: events) s = event e (withEvents events s) := rfl

theorem withEvents_withEvents (events later : List Event) (s : Script) :
    withEvents events (withEvents later s) = withEvents (events ++ later) s := by
  simp [withEvents, List.foldr_append]

@[simp] theorem outcomes_withEvents (events : List Event) (s : Script) :
    (withEvents events s).outcomes = s.outcomes := by
  induction events with
  | nil => rfl
  | cons e events ih => exact ih

@[simp] theorem whole_withEvents (events : List Event) (s : Script) :
    (withEvents events s).Whole ↔ s.Whole := by
  induction events with
  | nil => rfl
  | cons e events ih => exact ih

@[simp] theorem unbroken_withEvents (events : List Event) (s : Script) :
    (withEvents events s).Unbroken ↔ s.Unbroken := by
  induction events with
  | nil => rfl
  | cons e events ih => exact ih

/-! ## One script after another -/

theorem Whole.append {s t : Script} (hs : s.Whole) (ht : t.Whole) : (s.append t).Whole := by
  induction s with
  | done => exact ht
  | raised => trivial
  | unread => exact hs.elim
  | event e rest ih | outcome o rest ih => exact ih hs

@[simp] theorem unbroken_append {s t : Script} :
    (s.append t).Unbroken ↔ s.Unbroken ∧ t.Unbroken := by
  induction s with
  | done => simp [append, Unbroken]
  | raised | unread => simp [append, Unbroken]
  | event e rest ih | outcome o rest ih => exact ih

/-- Nothing follows a script that does not come to its end. -/
theorem append_of_not_unbroken {s : Script} (h : ¬ s.Unbroken) (t : Script) : s.append t = s := by
  induction s with
  | done => exact (h trivial).elim
  | raised | unread => rfl
  | event e rest ih => exact congrArg (event e) (ih h)
  | outcome o rest ih => exact congrArg (outcome o) (ih h)

theorem outcomes_append {s t : Script} (hs : s.Unbroken) :
    (s.append t).outcomes = s.outcomes ++ t.outcomes := by
  induction s with
  | done => rfl
  | raised | unread => exact hs.elim
  | event e rest ih => exact ih hs
  | outcome o rest ih => simp only [append, outcomes, ih hs, List.cons_append]

theorem mem_outcomes_append_iff {s t : Script} {o : Outcome} :
    o ∈ (s.append t).outcomes ↔ o ∈ s.outcomes ∨ s.Unbroken ∧ o ∈ t.outcomes := by
  induction s with
  | done => simp [append, outcomes, Unbroken]
  | raised | unread => simp [append, outcomes, Unbroken]
  | event e rest ih => exact ih
  | outcome o' rest ih =>
    simp only [append, outcomes, List.mem_cons, ih, or_assoc]
    rfl

theorem mem_outcomes_append {s t : Script} {o : Outcome} (h : o ∈ (s.append t).outcomes) :
    o ∈ s.outcomes ∨ o ∈ t.outcomes := (mem_outcomes_append_iff.mp h).imp_right And.right

/-! ## Scripts in place of outcomes -/

theorem Whole.expand {s : Script} {f : Outcome → Script} (hs : s.Whole)
    (hf : ∀ o ∈ s.outcomes, (f o).Whole) : (s.expand f).Whole := by
  induction s with
  | done | raised => trivial
  | unread => exact hs.elim
  | event e rest ih => exact ih hs hf
  | outcome o rest ih =>
    have hrest := ih hs fun o' ho' => hf o' (List.mem_cons_of_mem _ ho')
    exact (hf o List.mem_cons_self).append hrest

theorem unbroken_expand {s : Script} {f : Outcome → Script} :
    (s.expand f).Unbroken ↔ s.Unbroken ∧ ∀ o ∈ s.outcomes, (f o).Unbroken := by
  induction s with
  | done | raised | unread => simp [Script.expand, Unbroken, outcomes]
  | event e rest ih => exact ih
  | outcome o rest ih =>
    simp only [Script.expand, unbroken_append, ih, Unbroken, outcomes, List.forall_mem_cons]
    constructor
    · rintro ⟨ho, hrest, hall⟩
      exact ⟨hrest, ho, hall⟩
    · rintro ⟨hrest, ho, hall⟩
      exact ⟨ho, hrest, hall⟩

theorem outcomes_expand {s : Script} {f : Outcome → Script} (h : (s.expand f).Unbroken) :
    (s.expand f).outcomes = s.outcomes.flatMap fun o => (f o).outcomes := by
  induction s with
  | done => rfl
  | raised | unread => exact h.elim
  | event e rest ih => exact ih h
  | outcome o rest ih =>
    obtain ⟨ho, hrest⟩ := unbroken_append.mp h
    simp only [Script.expand, outcomes_append ho, ih hrest, outcomes, List.flatMap_cons]

/-- What stands in the place of an outcome is behind all that stands in the place of
earlier ones, and so none of that is cut off. -/
theorem exists_place_of_mem_outcomes_expand {s : Script} {f : Outcome → Script} {o : Outcome}
    (h : o ∈ (s.expand f).outcomes) :
    ∃ (place : Nat) (o' : Outcome), s.outcomes[place]? = some o' ∧ o ∈ (f o').outcomes ∧
      ∀ earlier < place, ∀ o'', s.outcomes[earlier]? = some o'' → (f o'').Unbroken := by
  induction s with
  | done | raised | unread => cases h
  | event e rest ih => exact ih h
  | outcome o' rest ih =>
    rcases mem_outcomes_append_iff.mp h with h | ⟨hfirst, h⟩
    · exact ⟨0, o', rfl, h, fun earlier hearlier => absurd hearlier (Nat.not_lt_zero _)⟩
    · obtain ⟨place, o₁, ho₁, hmem, hbefore⟩ := ih h
      refine ⟨place + 1, o₁, ho₁, hmem, fun earlier hearlier o'' ho'' => ?_⟩
      cases earlier with
      | zero =>
        cases ho''
        exact hfirst
      | succ earlier => exact hbefore earlier (Nat.lt_of_succ_lt_succ hearlier) o'' ho''

theorem mem_outcomes_expand {s : Script} {f : Outcome → Script} {o : Outcome}
    (h : o ∈ (s.expand f).outcomes) : ∃ o' ∈ s.outcomes, o ∈ (f o').outcomes := by
  obtain ⟨place, o', ho', hmem, _⟩ := exists_place_of_mem_outcomes_expand h
  exact ⟨o', List.mem_of_getElem? ho', hmem⟩

/-! ## Scripts cut at a success -/

theorem Whole.upToSuccess {s : Script} {found : Int → Script} {otherwise : Script} (hs : s.Whole)
    (hf : ∀ stop, (found stop).Whole) (ho : otherwise.Whole) :
    (Script.upToSuccess found otherwise s).Whole := by
  induction s with
  | done => exact ho
  | raised => trivial
  | unread => exact hs.elim
  | event e rest ih => exact ih hs
  | outcome o rest ih =>
    cases o with
    | success index value => exact hf index
    | failure index expect => exact ih hs

theorem mem_outcomes_upToSuccess {s : Script} {found : Int → Script} {otherwise : Script}
    {o : Outcome} (h : o ∈ (upToSuccess found otherwise s).outcomes) :
    (∃ stop, o ∈ (found stop).outcomes) ∨ o ∈ otherwise.outcomes := by
  induction s with
  | done => exact Or.inr h
  | raised | unread => simp [upToSuccess, outcomes] at h
  | event e rest ih => exact ih h
  | outcome o' rest ih =>
    cases o' with
    | success index value => exact Or.inl ⟨index, h⟩
    | failure index expect => exact ih h

/-! ## Scripts of parts put together -/

theorem Whole.pairWith {s : Script} {second : Int → Script} (hs : s.Whole)
    (h : ∀ j v, .success j v ∈ s.outcomes → (second j).Whole) : (s.pairWith second).Whole := by
  refine hs.expand fun o ho => ?_
  cases o with
  | failure index expect => exact whole_single _
  | success index value => exact (h index value ho).expand fun o _ => whole_single _

theorem mem_outcomes_pairWith {s : Script} {second : Int → Script} {o : Outcome}
    (h : o ∈ (s.pairWith second).outcomes) :
    (∃ index expect, o = .failure index expect ∧ o ∈ s.outcomes) ∨
      ∃ j v o', .success j v ∈ s.outcomes ∧ o' ∈ (second j).outcomes ∧ o = o'.pairedWith v := by
  obtain ⟨o', ho', h⟩ := mem_outcomes_expand h
  cases o' with
  | failure index expect =>
    rw [outcomes_single, List.mem_singleton] at h
    exact Or.inl ⟨index, expect, h, h ▸ ho'⟩
  | success j v =>
    obtain ⟨o'', ho'', h⟩ := mem_outcomes_expand h
    rw [outcomes_single, List.mem_singleton] at h
    exact Or.inr ⟨j, v, o'', ho', ho'', h⟩

theorem Whole.change {s : Script} (f : Outcome → Action Outcome) (hs : s.Whole) :
    (s.change f).Whole :=
  hs.expand fun o _ => whole_withEvents _ _ |>.mpr (whole_ofResult (f o).result)

theorem exists_result_of_unbroken_change {s : Script} {f : Outcome → Action Outcome}
    (hs : (s.change f).Unbroken) {o : Outcome} (ho : o ∈ s.outcomes) :
    ∃ o', (f o).result = .ok o' := by
  have ho := unbroken_withEvents _ _ |>.mp ((unbroken_expand.mp hs).2 o ho)
  cases hr : (f o).result with
  | error fault =>
    rw [hr] at ho
    exact ho.elim
  | ok o' => exact ⟨o', rfl⟩

theorem mem_outcomes_change {s : Script} {f : Outcome → Action Outcome} {o' : Outcome}
    (h : o' ∈ (s.change f).outcomes) : ∃ o ∈ s.outcomes, (f o).result = .ok o' := by
  obtain ⟨o, ho, h⟩ := mem_outcomes_expand h
  rw [outcomes_withEvents, mem_outcomes_ofResult] at h
  exact ⟨o, ho, h⟩

theorem Whole.negate {s : Script} (text : Text) (start : Int) (hs : s.Whole) :
    (s.negate text start).Whole :=
  hs.upToSuccess (fun _ => whole_single _) (whole_single _)

theorem mem_outcomes_negate {s : Script} {text : Text} {start : Int} {o : Outcome}
    (h : o ∈ (s.negate text start).outcomes) :
    (∃ stop, o = Parser.presence text start stop) ∨ o = .success start .none := by
  rcases mem_outcomes_upToSuccess h with ⟨stop, h⟩ | h
  · rw [outcomes_single, List.mem_singleton] at h
    exact Or.inl ⟨stop, h⟩
  · rw [outcomes_single, List.mem_singleton] at h
    exact Or.inr h

/-! ## Reading -/

/-- Read a script up to the first outcome that is wanted, and no more outcomes
than the limit. Where the script stays unread, nothing is shown. -/
def read (wanted : Outcome → Bool) : Nat → Script → Option Shown
  | 0, _ => some ⟨[], [], .satisfied⟩
  | _ + 1, done => some ⟨[], [], .exhausted⟩
  | _ + 1, raised fault => some ⟨[], [], .faulted fault⟩
  | _ + 1, unread => none
  | n + 1, event e rest =>
    (rest.read wanted (n + 1)).map fun r => { r with events := e :: r.events }
  | n + 1, outcome o rest =>
    if wanted o then some ⟨[], [o], .satisfied⟩
    else (rest.read wanted n).map fun r => { r with outcomes := o :: r.outcomes }

/-- Read no more outcomes than the limit. -/
def take (limit : Nat) (s : Script) : Option Shown := s.read (fun _ => false) limit

theorem read_none (wanted : Outcome → Bool) (s : Script) :
    s.read wanted 0 = some ⟨[], [], .satisfied⟩ := by
  cases s <;> rfl

theorem read_withEvents (wanted : Outcome → Bool) (n : Nat) (events : List Event) (s : Script) :
    (withEvents events s).read wanted (n + 1) =
      (s.read wanted (n + 1)).map fun r => { r with events := events ++ r.events } := by
  induction events with
  | nil => simp
  | cons e events ih =>
    simp only [withEvents_cons, read, ih, Option.map_map]
    rfl

/-- A script that is known to its end can be read as far as anyone likes. -/
theorem Whole.read {s : Script} (h : s.Whole) (wanted : Outcome → Bool) (n : Nat) :
    ∃ r, s.read wanted n = some r := by
  induction s generalizing n with
  | done | raised => cases n <;> exact ⟨_, rfl⟩
  | unread => exact h.elim
  | event e rest ih =>
    cases n with
    | zero => exact ⟨_, rfl⟩
    | succ n =>
      obtain ⟨r, hr⟩ := ih h (n + 1)
      exact ⟨_, by rw [Script.read, hr]; rfl⟩
  | outcome o rest ih =>
    cases n with
    | zero => exact ⟨_, rfl⟩
    | succ n =>
      obtain ⟨r, hr⟩ := ih h n
      by_cases hw : wanted o
      · exact ⟨_, by rw [Script.read, if_pos hw]⟩
      · exact ⟨_, by rw [Script.read, if_neg hw, hr]; rfl⟩

/-- One more than all outcomes of a script that is known to its end are never
there, and only a fault keeps them from being exhausted. -/
theorem Whole.take {s : Script} (h : s.Whole) :
    ∃ r, s.take (s.outcomes.length + 1) = some r ∧ r.outcomes = s.outcomes ∧
      (r.stop = .exhausted ∨ ¬ s.Unbroken ∧ ∃ fault, r.stop = .faulted fault) := by
  induction s with
  | done => exact ⟨_, rfl, rfl, Or.inl rfl⟩
  | raised fault => exact ⟨_, rfl, rfl, Or.inr ⟨id, fault, rfl⟩⟩
  | unread => exact h.elim
  | event e rest ih =>
    obtain ⟨r, hr, ho, hstop⟩ := ih h
    unfold Script.take at hr ⊢
    exact ⟨{ r with events := e :: r.events }, by rw [outcomes, Script.read, hr]; rfl, ho, hstop⟩
  | outcome o rest ih =>
    obtain ⟨r, hr, ho, hstop⟩ := ih h
    unfold Script.take at hr ⊢
    refine ⟨{ r with outcomes := o :: r.outcomes }, ?_, by rw [outcomes, ho], hstop⟩
    rw [outcomes, List.length_cons, Script.read, hr]
    rfl

/-- An outcome is shown at its place once the script is read as far. -/
theorem take_of_getElem? {s : Script} {o : Outcome} {place : Nat} (h : s.outcomes[place]? = some o) :
    ∃ r, s.take (place + 1) = some r ∧ r.outcomes[place]? = some o := by
  unfold take
  induction s generalizing place with
  | done | raised | unread => cases h
  | event e rest ih =>
    obtain ⟨r, hr, ho⟩ := ih h
    exact ⟨{ r with events := e :: r.events }, by rw [read, hr]; rfl, ho⟩
  | outcome o' rest ih =>
    cases place with
    | zero =>
      cases h
      exact ⟨⟨[], [o], .satisfied⟩, by rw [read, if_neg Bool.false_ne_true, read_none]; rfl, rfl⟩
    | succ place =>
      obtain ⟨r, hr, ho⟩ := ih h
      exact ⟨{ r with outcomes := o' :: r.outcomes },
        by rw [read, if_neg Bool.false_ne_true, hr]; rfl, ho⟩

/-- Every outcome of a script is shown once the script is read far enough. -/
theorem take_of_mem {s : Script} {o : Outcome} (h : o ∈ s.outcomes) :
    ∃ n r, s.take n = some r ∧ o ∈ r.outcomes := by
  obtain ⟨place, hplace⟩ := List.mem_iff_getElem?.mp h
  obtain ⟨r, hr, ho⟩ := take_of_getElem? hplace
  exact ⟨place + 1, r, hr, List.mem_of_getElem? ho⟩

/-- Whatever is shown of a script stands in it. -/
theorem outcomes_prefix_of_read {wanted : Outcome → Bool} {n : Nat} {s : Script} {r : Shown}
    (h : s.read wanted n = some r) : r.outcomes <+: s.outcomes := by
  induction s generalizing n r with
  | done | raised => cases n <;> cases h <;> exact List.prefix_refl _
  | unread => cases n <;> cases h; exact List.prefix_refl _
  | event e rest ih =>
    cases n with
    | zero => cases h; exact List.nil_prefix
    | succ n =>
      obtain ⟨r', hr', rfl⟩ := Option.map_eq_some_iff.mp h
      exact ih (r := r') hr'
  | outcome o rest ih =>
    cases n with
    | zero => cases h; exact List.nil_prefix
    | succ n =>
      rw [read] at h
      by_cases hw : wanted o
      · rw [if_pos hw] at h
        cases h
        exact List.prefix_append [o] rest.outcomes
      · rw [if_neg hw] at h
        obtain ⟨r', hr', rfl⟩ := Option.map_eq_some_iff.mp h
        exact List.prefix_cons_inj o |>.mpr (ih hr')

theorem outcomes_prefix_of_take {n : Nat} {s : Script} {r : Shown} (h : s.take n = some r) :
    r.outcomes <+: s.outcomes := outcomes_prefix_of_read h

/-- Only a script without a fault can be exhausted, and then all its outcomes
have been shown. -/
theorem unbroken_of_take {n : Nat} {s : Script} {r : Shown} (h : s.take n = some r)
    (hstop : r.stop = .exhausted) : s.Unbroken ∧ r.outcomes = s.outcomes := by
  unfold take at h
  induction s generalizing n r with
  | done => cases n <;> cases h <;> exact ⟨trivial, rfl⟩
  | raised => cases n <;> cases h <;> cases hstop
  | unread => cases n <;> cases h; cases hstop
  | event e rest ih =>
    cases n with
    | zero => cases h; cases hstop
    | succ n =>
      obtain ⟨r', hr', rfl⟩ := Option.map_eq_some_iff.mp h
      exact ih (r := r') hr' hstop
  | outcome o rest ih =>
    cases n with
    | zero => cases h; cases hstop
    | succ n =>
      obtain ⟨r', hr', rfl⟩ := Option.map_eq_some_iff.mp h
      obtain ⟨hu, ho⟩ := ih hr' hstop
      exact ⟨hu, by rw [outcomes, ← ho]⟩

end Script

namespace Parser

/-! ## What becomes of one outcome -/

theorem result_onValue {f : Value → Action Value} {o o' : Outcome} {i : Int}
    (h : (onValue f o i).result = .ok o') :
    (∃ index expect, o = .failure index expect ∧ o' = o) ∨
      ∃ j v w, o = .success j v ∧ (f v).result = .ok w ∧ o' = .success j w := by
  cases o with
  | failure index expect =>
    cases h
    exact Or.inl ⟨index, expect, rfl, rfl⟩
  | success j v =>
    simp only [onValue, bind, Action.andThen] at h
    split at h
    · cases h
    · rename_i w hw
      cases h
      exact Or.inr ⟨j, v, w, rfl, hw, rfl⟩

theorem result_consValues (v : Value) : (consValues v).result = match v.second.elements? with
    | none => .error (.notIterable v.second)
    | some others => .ok (.list (v.first :: others)) := by
  simp only [consValues, elementsOf, bind, Action.andThen]
  cases v.second.elements? <;> rfl

/-- Progress changes no outcome, and lets no success through that takes nothing. -/
theorem result_requireProgress {o o' : Outcome} {i : Int}
    (h : (requireProgress o i).result = .ok o') :
    o' = o ∧ ∀ j v, o = .success j v → i < j := by
  cases o with
  | failure index expect =>
    cases h
    exact ⟨rfl, fun _ _ h => by cases h⟩
  | success j v =>
    rw [requireProgress] at h
    split at h
    · cases h
    · rename_i hj
      cases h
      refine ⟨rfl, fun k w h => ?_⟩
      cases h
      omega

/-! ## The scripts of parsers -/

variable (rules : Rules) (text : Text) (n : Nat) (i : Int)

@[simp] theorem script_leaf (l : Leaf) :
    (leaf l).script rules text n i = .ofResult (l.attempt text i) := by
  cases n <;> rfl

@[simp] theorem script_custom (step : Text → Int → Action Script) :
    (custom step).script rules text n i = .ofAction (step text i) := by
  cases n <;> rfl

@[simp] theorem script_pair (p q : Parser) : (p.pair q).script rules text n i =
    (p.script rules text n i).pairWith (q.script rules text n) := by
  cases n <;> rfl

@[simp] theorem script_or (p q : Parser) : (p.or q).script rules text n i =
    (p.script rules text n i).append (q.script rules text n i) := by
  cases n <;> rfl

@[simp] theorem script_mapOutcome (change : Outcome → Int → Action Outcome) (p : Parser) :
    (p.mapOutcome change).script rules text n i =
      (p.script rules text n i).change (change · i) := by
  cases n <;> rfl

@[simp] theorem script_not (p : Parser) :
    p.not.script rules text n i = (p.script rules text n i).negate text i := by
  cases n <;> rfl

@[simp] theorem script_many (p : Parser) :
    p.many.script rules text n i = repeated (p.script rules text n) n i := by
  cases n <;> rfl

theorem script_ref {handle : Handle} {body : Parser} (hb : rules.body? handle = some body) :
    (ref handle).script rules text (n + 1) i = body.script rules text n i := by
  simp only [script, scriptWith, hb]

theorem script_ref_undefined {handle : Handle} (hb : rules.body? handle = none) :
    (ref handle).script rules text (n + 1) i = .raised .undefinedHandle := by
  simp only [script, scriptWith, hb]

/-- The script of repetitions is that of one step of them, with one repetition less
behind it. -/
theorem script_unfoldMany (p : Parser) :
    p.unfoldMany.script rules text n i = repeated (p.script rules text n) (n + 1) i := by
  cases n <;> rfl

end Parser

end Backtrack
