-- Traversals: streams read depth first, each behind a success of another one. A machine with
-- a stack of streams goes from step to step, and nothing in it knows how parsers are put
-- together. A script that is made by recursion tells of the same traversal, and the scripts
-- of repetitions are made in this way.
import Backtrack.Proofs.Stream.Comparing

namespace Backtrack

namespace Script

/-- The log record of a repetition that does not get past its start, and its fault. -/
def refusal (k : Int) : Script := event (.logged (.emptyRepetition k)) (raised (.emptyRepetition k))

end Script

/-! ## Plans -/

/-- The order of a traversal: the places where streams lie, and how they lie behind each
other. -/
structure Plan (Place : Type) where
  /-- The parser that is read at a place. -/
  parser : Place → Parser
  /-- Where it starts. -/
  start : Place → Int
  /-- The place that is entered behind a success, by its end and its value. -/
  behind : Place → Int → Value → Place
  /-- The offset that each success at a place has to get past, if there is one. -/
  floor : Place → Option Int
  /-- The outcome that is given when the stream at a place has ended, if there is one. -/
  closing : Place → Option Outcome

/-- A stream that is being read: its place, and what is left of it. -/
structure Level (Place : Type) where
  place : Place
  rest : Script

/-- A step of a traversal. -/
inductive Step where
  /-- A stream has recorded an event. -/
  | recorded (event : Event)
  /-- A success has been reached that ends at an offset, and perhaps has to get past another. -/
  | reached (floor : Option Int) (stop : Int)
  /-- An outcome has been given. -/
  | gave (outcome : Outcome)

namespace Step

/-- The success that has been reached, if it is one, gets past where it has to. -/
def Advances : Step → Prop
  | reached floor stop => ∀ k, floor = some k → k < stop
  | recorded _ | gave _ => True

/-- What can be seen of steps, and then a script. -/
def seen : List Step → Script → Script
  | [], t => t
  | recorded e :: steps, t => .event e (seen steps t)
  | reached _ _ :: steps, t => seen steps t
  | gave o :: steps, t => .outcome o (seen steps t)

/-- The events of steps in their order. -/
def events (steps : List Step) : List Event := (seen steps .done).events

/-- The outcomes of steps in their order. -/
def outcomes (steps : List Step) : List Outcome := (seen steps .done).outcomes

variable {steps : List Step} {t : Script}

theorem seen_append (steps more : List Step) (t : Script) :
    seen (steps ++ more) t = seen steps (seen more t) := by
  induction steps with
  | nil => rfl
  | cons step steps ih =>
    cases step with
    | recorded e => exact congrArg (Script.event e) ih
    | reached floor stop => exact ih
    | gave o => exact congrArg (Script.outcome o) ih

theorem append_seen (steps : List Step) (t u : Script) :
    (seen steps t).append u = seen steps (t.append u) := by
  induction steps with
  | nil => rfl
  | cons step steps ih =>
    cases step with
    | recorded e => exact congrArg (Script.event e) ih
    | reached floor stop => exact ih
    | gave o => exact congrArg (Script.outcome o) ih

theorem seen_gave (outcomes : List Outcome) (t : Script) :
    seen (outcomes.map gave) t = (Script.ofOutcomes outcomes).append t := by
  induction outcomes with
  | nil => rfl
  | cons o outcomes ih => exact congrArg (Script.outcome o) ih

theorem endsIn_seen {fault : Fault} : (seen steps t).EndsIn fault ↔ t.EndsIn fault := by
  induction steps with
  | nil => rfl
  | cons step steps ih => cases step <;> exact ih

theorem events_seen : (seen steps t).events = events steps ++ t.events := by
  unfold events
  induction steps with
  | nil => rfl
  | cons step steps ih =>
    cases step with
    | recorded e => exact congrArg (e :: ·) ih
    | reached | gave => exact ih

theorem outcomes_seen : (seen steps t).outcomes = outcomes steps ++ t.outcomes := by
  unfold outcomes
  induction steps with
  | nil => rfl
  | cons step steps ih =>
    cases step with
    | gave o => exact congrArg (o :: ·) ih
    | recorded | reached => exact ih

end Step

namespace Plan

variable {Place : Type} (plan : Plan Place) (stream : Place → Script)

/-! ## The machine -/

/-- The traversal goes by steps from one stack of levels to another. The innermost level
stands first: it is read on, behind a success of it one more level is entered, and when it
has ended it is left. -/
inductive Goes : List (Level Place) → List Step → List (Level Place) → Prop where
  | stay (levels : List (Level Place)) : Goes levels [] levels
  | event {place : Place} {e : Event} {rest : Script} {outer levels : List (Level Place)}
      {steps : List Step} : Goes (⟨place, rest⟩ :: outer) steps levels →
    Goes (⟨place, .event e rest⟩ :: outer) (.recorded e :: steps) levels
  | failure {place : Place} {index : Int} {expect : String} {rest : Script}
      {outer levels : List (Level Place)} {steps : List Step} :
    Goes (⟨place, rest⟩ :: outer) steps levels →
    Goes (⟨place, .outcome (.failure index expect) rest⟩ :: outer)
      (.gave (.failure index expect) :: steps) levels
  | success {place : Place} {j : Int} {v : Value} {rest : Script} {outer levels : List (Level Place)}
      {steps : List Step} :
    Goes (⟨plan.behind place j v, stream (plan.behind place j v)⟩ :: ⟨place, rest⟩ :: outer) steps levels →
    Goes (⟨place, .outcome (.success j v) rest⟩ :: outer) (.reached (plan.floor place) j :: steps) levels
  | leave {place : Place} {outer levels : List (Level Place)} {steps : List Step} :
    Goes outer steps levels →
    Goes (⟨place, .done⟩ :: outer) ((plan.closing place).toList.map .gave ++ steps) levels

/-- The innermost stream has met the fault. -/
def Faults (levels : List (Level Place)) (fault : Fault) : Prop :=
  ∃ place outer, levels = ⟨place, .raised fault⟩ :: outer

/-- The innermost stream has reached a success that does not get past the offset, which it
has to get past. -/
def Refuses (levels : List (Level Place)) (k : Int) : Prop :=
  ∃ place j v rest outer, levels = ⟨place, .outcome (.success j v) rest⟩ :: outer ∧
    plan.floor place = some k ∧ j ≤ k

/-- What shows where the traversal stands. -/
inductive Ends (levels : List (Level Place)) : Script → Prop where
  | finished : levels = [] → Ends levels .done
  | faulted {fault : Fault} : Faults levels fault → Ends levels (.raised fault)
  | refused {k : Int} : plan.Refuses levels k → Ends levels (.refusal k)
  /-- Nothing more is read. -/
  | paused : Ends levels .unread

/-! ## Traversals by recursion -/

/-- What takes the place of an outcome. -/
def arrival (further : Place → Script) (place : Place) : Outcome → Script
  | .failure index expect => .single (.failure index expect)
  | .success j v =>
    match plan.floor place with
    | some k => if j ≤ k then .refusal k else further (plan.behind place j v)
    | none => further (plan.behind place j v)

/-- What is left of a stream, with further ones behind its successes, and then what is given
at its end. -/
def onward (further : Place → Script) (place : Place) (rest : Script) : Script :=
  (rest.expand (plan.arrival further place)).append (.ofOutcomes (plan.closing place).toList)

/-- The traversal from a place. The number says how many levels may lie in each other. -/
def tour : Nat → Place → Script
  | 0, _ => .unread
  | n + 1, place => plan.onward (tour n) place (stream place)

variable {plan stream} {further further' : Place → Script} {place : Place} {j : Int} {v : Value}
  {rest rest' : Script}

theorem arrival_advancing (h : ∀ k, plan.floor place = some k → k < j) :
    plan.arrival further place (.success j v) = further (plan.behind place j v) := by
  rw [arrival]
  cases hfloor : plan.floor place with
  | none => rfl
  | some k => exact if_neg (Int.not_le.mpr (h k hfloor))

theorem onward_advancing (h : ∀ k, plan.floor place = some k → k < j) :
    plan.onward further place (.outcome (.success j v) rest) =
      (further (plan.behind place j v)).append (plan.onward further place rest) := by
  rw [onward, Script.expand, arrival_advancing h, Script.append_assoc]
  rfl

theorem onward_refused {k : Int} (hk : plan.floor place = some k) (hj : j ≤ k) :
    plan.onward further place (.outcome (.success j v) rest) = .refusal k := by
  rw [onward, Script.expand, arrival, hk]
  simp only [if_pos hj]
  rfl

theorem onward_le (hfurther : ∀ place, further place ≤ further' place) (hrest : rest ≤ rest') :
    plan.onward further place rest ≤ plan.onward further' place rest' := by
  refine Script.append_le (Script.expand_le hrest fun o => ?_) (le_refl _)
  cases o with
  | failure index expect => exact le_refl _
  | success j v =>
    rw [arrival, arrival]
    cases plan.floor place with
    | none => exact hfurther _
    | some k =>
      simp only
      split
      · exact le_refl _
      · exact hfurther _

theorem tour_le {stream' : Place → Script} (h : ∀ place, stream place ≤ stream' place) {n m : Nat}
    (hnm : n ≤ m) (place : Place) : plan.tour stream n place ≤ plan.tour stream' m place := by
  induction n generalizing m place with
  | zero => exact Script.unread_le _
  | succ n ih =>
    obtain ⟨m, rfl⟩ : ∃ k, m = k + 1 := ⟨m - 1, by omega⟩
    exact onward_le (fun place => ih (Nat.le_of_succ_le_succ hnm) place) (h place)

/-! ## From recursion to steps -/

theorem Goes.trans {levels mid last : List (Level Place)} {steps more : List Step}
    (h : plan.Goes stream levels steps mid) (h' : plan.Goes stream mid more last) :
    plan.Goes stream levels (steps ++ more) last := by
  induction h with
  | stay => exact h'
  | event _ ih => exact .event (ih h')
  | failure _ ih => exact .failure (ih h')
  | success _ ih => exact .success (ih h')
  | leave _ ih =>
    rw [List.append_assoc]
    exact .leave (ih h')

/-- The script is what the traversal shows from some levels on until it has come out at
others, or up to where it ends before. -/
def Told (plan : Plan Place) (stream : Place → Script) (s : Script)
    (levels outer : List (Level Place)) : Prop :=
  ∃ steps, (∀ step ∈ steps, step.Advances) ∧
    ((plan.Goes stream levels steps outer ∧ s = Step.seen steps .done) ∨
      ∃ last t, plan.Goes stream levels steps last ∧ plan.Ends last t ∧ ¬ t.Unbroken ∧
        s = Step.seen steps t)

namespace Told

variable {s t : Script} {levels levels' outer : List (Level Place)}

theorem append (hs : plan.Told stream s levels levels') (ht : plan.Told stream t levels' outer) :
    plan.Told stream (s.append t) levels outer := by
  obtain ⟨steps, hsteps, ⟨hgoes, rfl⟩ | ⟨last, t', hgoes, hends, hbroken, rfl⟩⟩ := hs
  · obtain ⟨more, hmore, ht⟩ := ht
    have hboth : ∀ step ∈ steps ++ more, step.Advances := by
      intro step hstep
      exact (List.mem_append.mp hstep).elim (hsteps step) (hmore step)
    refine ⟨steps ++ more, hboth, ?_⟩
    rw [Step.append_seen]
    rcases ht with ⟨hgoes', rfl⟩ | ⟨last, t', hgoes', hends, hbroken, rfl⟩
    · exact Or.inl ⟨hgoes.trans hgoes', (Step.seen_append _ _ _).symm⟩
    · exact Or.inr ⟨last, t', hgoes.trans hgoes', hends, hbroken, (Step.seen_append _ _ _).symm⟩
  · refine ⟨steps, hsteps, Or.inr ⟨last, t', hgoes, hends, hbroken, ?_⟩⟩
    rw [Step.append_seen, Script.append_of_not_unbroken hbroken]

/-- One step before the others. -/
theorem step (step : Step) (hadvances : step.Advances)
    (hgoes : ∀ steps last, plan.Goes stream levels' steps last →
      plan.Goes stream levels (step :: steps) last)
    (h : plan.Told stream s levels' outer) :
    plan.Told stream (Step.seen [step] s) levels outer := by
  obtain ⟨steps, hsteps, h⟩ := h
  have hseen : ∀ t, Step.seen [step] (Step.seen steps t) = Step.seen (step :: steps) t :=
    fun t => (Step.seen_append [step] steps t).symm
  refine ⟨step :: steps, List.forall_mem_cons.mpr ⟨hadvances, hsteps⟩, ?_⟩
  rcases h with ⟨h, rfl⟩ | ⟨last, t, h, hends, hbroken, rfl⟩
  · exact Or.inl ⟨hgoes _ _ h, hseen _⟩
  · exact Or.inr ⟨last, t, hgoes _ _ h, hends, hbroken, hseen _⟩

/-- The traversal ends where it stands. -/
theorem ends (h : plan.Ends levels t) (ht : ¬ t.Unbroken) : plan.Told stream t levels outer :=
  ⟨[], by simp, Or.inr ⟨levels, t, .stay levels, h, ht, rfl⟩⟩

end Told

/-- If the traversal from each place that is entered is told by a script, the traversal of
what is left of a stream is told by these in the place of its successes. -/
theorem told_onward
    (hfurther : ∀ place outer, plan.Told stream (further place) (⟨place, stream place⟩ :: outer) outer)
    (outer : List (Level Place)) :
    plan.Told stream (plan.onward further place rest) (⟨place, rest⟩ :: outer) outer := by
  induction rest with
  | done =>
    have hgoes : plan.Goes stream (⟨place, .done⟩ :: outer)
        ((plan.closing place).toList.map .gave ++ []) outer := .leave (.stay outer)
    rw [List.append_nil] at hgoes
    refine ⟨_, ?_, Or.inl ⟨hgoes, ?_⟩⟩
    · intro step hstep
      obtain ⟨o, _, rfl⟩ := List.mem_map.mp hstep
      trivial
    · rw [Step.seen_gave, Script.append_done]
      rfl
  | raised fault => exact .ends (.faulted ⟨place, outer, rfl⟩) id
  | unread => exact .ends .paused id
  | event e rest ih => exact ih.step (.recorded e) trivial fun _ _ h => .event h
  | outcome o rest ih =>
    cases o with
    | failure index expect =>
      exact ih.step (.gave (.failure index expect)) trivial fun _ _ h => .failure h
    | success j v =>
      by_cases hadvances : ∀ k, plan.floor place = some k → k < j
      · rw [onward_advancing hadvances]
        have hbehind := (hfurther (plan.behind place j v) (⟨place, rest⟩ :: outer)).append ih
        exact hbehind.step (.reached (plan.floor place) j) hadvances fun _ _ h => .success h
      · obtain ⟨k, hk⟩ := not_forall.mp hadvances
        obtain ⟨hk, hlt⟩ := Classical.not_imp.mp hk
        have hj : j ≤ k := Int.not_lt.mp hlt
        rw [onward_refused hk hj]
        exact .ends (.refused ⟨place, j, v, rest, outer, rfl, hk, hj⟩) id

/-- A traversal by recursion is one by steps. -/
theorem told_tour (n : Nat) (place : Place) (outer : List (Level Place)) :
    plan.Told stream (plan.tour stream n place) (⟨place, stream place⟩ :: outer) outer := by
  induction n generalizing place outer with
  | zero => exact .ends .paused id
  | succ n ih => exact told_onward ih outer

/-! ## From steps to recursion -/

variable (plan stream) in
/-- What is still to be told at some levels. Each level may have one more below it than the
one that it stands on. -/
def remaining : Nat → List (Level Place) → Script
  | _, [] => .done
  | n, level :: outer =>
    (plan.onward (plan.tour stream n) level.place level.rest).append (remaining (n + 1) outer)

theorem Ends.le_remaining {levels : List (Level Place)} {t : Script} (h : plan.Ends levels t)
    (n : Nat) : t ≤ plan.remaining stream n levels := by
  cases h with
  | finished h =>
    subst h
    exact le_refl _
  | faulted h =>
    obtain ⟨place, outer, rfl⟩ := h
    exact le_refl _
  | refused h =>
    obtain ⟨place, j, v, rest, outer, rfl, hk, hj⟩ := h
    rw [remaining, onward_refused hk hj]
    exact le_refl _
  | paused => exact Script.unread_le _

/-- What steps show is told by recursion, if it goes as deep as there are steps. -/
theorem Goes.le_remaining {levels last : List (Level Place)} {steps : List Step} {t : Script}
    (h : plan.Goes stream levels steps last) (hsteps : ∀ step ∈ steps, step.Advances)
    (hends : plan.Ends last t) {n : Nat} (hn : steps.length ≤ n) :
    Step.seen steps t ≤ plan.remaining stream n levels := by
  induction h generalizing n with
  | stay => exact hends.le_remaining n
  | event _ ih =>
    exact .event _ (ih (List.forall_mem_cons.mp hsteps).2 hends (Nat.le_of_succ_le hn))
  | failure _ ih =>
    exact .outcome _ (ih (List.forall_mem_cons.mp hsteps).2 hends (Nat.le_of_succ_le hn))
  | @success place j v rest outer _ _ _ ih =>
    obtain ⟨n, rfl⟩ : ∃ m, n = m + 1 := ⟨n - 1, by simp at hn; omega⟩
    obtain ⟨hadvances, hmore⟩ := List.forall_mem_cons.mp hsteps
    rw [remaining, onward_advancing hadvances, Script.append_assoc]
    exact ih hmore hends (Nat.le_of_succ_le_succ hn)
  | @leave place outer _ steps _ ih =>
    have hmore := ih (fun step hstep => hsteps step (List.mem_append_right _ hstep)) hends
      (n := n + 1) (by simp at hn; omega)
    rw [Step.seen_append, Step.seen_gave]
    exact Script.append_le (le_refl _) hmore

end Plan

/-! ## Traversals of parsers -/

namespace Plan

variable {Place : Type} (plan : Plan Place) (rules : Rules) (text : Text)

/-- The stream at a place, under a limit for the recursion in it. -/
def stream (n : Nat) (place : Place) : Script :=
  (plan.parser place).script rules text n (plan.start place)

/-- The traversal from a place comes by the steps to the levels. All successes on its way
get past where they have to. -/
def Comes (place : Place) (steps : List Step) (levels : List (Level Place)) : Prop :=
  ∃ n, plan.Goes (plan.stream rules text n) [⟨place, plan.stream rules text n place⟩] steps levels ∧
    ∀ step ∈ steps, step.Advances

/-- The traversal from a place shows the events, the outcomes and why the reading stopped,
if no more outcomes are read than the limit. -/
def Shows (place : Place) (limit : Nat) (shown : Shown) : Prop :=
  ∃ steps levels t, plan.Comes rules text place steps levels ∧ plan.Ends levels t ∧
    (Step.seen steps t).take limit = some shown

variable {plan rules text} {place : Place} {limit : Nat} {shown : Shown} {fault : Fault}

theorem stream_le {n m : Nat} (h : n ≤ m) (place : Place) :
    plan.stream rules text n place ≤ plan.stream rules text m place := Parser.script_le h _ _

theorem shows_iff_take_tour : plan.Shows rules text place limit shown ↔
    ∃ n m, (plan.tour (plan.stream rules text n) m place).take limit = some shown := by
  constructor
  · rintro ⟨steps, levels, t, ⟨n, hgoes, hadvances⟩, hends, htake⟩
    have hle := hgoes.le_remaining hadvances hends (Nat.le_refl _)
    simp only [remaining, Script.append_done] at hle
    exact ⟨n, steps.length + 1, Script.read_of_le hle htake⟩
  · rintro ⟨n, m, htake⟩
    have htold : plan.Told (plan.stream rules text n) (plan.tour (plan.stream rules text n) m place)
        [⟨place, plan.stream rules text n place⟩] [] := told_tour m place []
    obtain ⟨steps, hadvances, ⟨hgoes, htour⟩ | ⟨levels, t, hgoes, hends, _, htour⟩⟩ := htold
    · exact ⟨steps, [], .done, ⟨n, hgoes, hadvances⟩, .finished rfl, htour ▸ htake⟩
    · exact ⟨steps, levels, t, ⟨n, hgoes, hadvances⟩, hends, htour ▸ htake⟩

/-- A fault of the traversal is one that a stream has met, or that of a success which does
not get past where it has to, with one log record before it. All that shows besides are
the steps that led there. -/
theorem shows_faulted_iff {events : List Event} {outcomes : List Outcome} :
    plan.Shows rules text place limit ⟨events, outcomes, .faulted fault⟩ ↔
      ∃ steps levels, plan.Comes rules text place steps levels ∧ outcomes = Step.outcomes steps ∧
        outcomes.length < limit ∧
        (Faults levels fault ∧ events = Step.events steps ∨
          ∃ k, plan.Refuses levels k ∧ fault = .emptyRepetition k ∧
            events = Step.events steps ++ [.logged (.emptyRepetition k)]) := by
  simp only [Shows, Script.take_eq_faulted_iff, Step.endsIn_seen, Step.events_seen,
    Step.outcomes_seen]
  constructor
  · rintro ⟨steps, levels, t, hcomes, hends, hfault, rfl, rfl, hlength⟩
    refine ⟨steps, levels, hcomes, ?_⟩
    cases hends with
    | finished | paused => exact hfault.elim
    | faulted h =>
      cases hfault
      exact ⟨List.append_nil _, hlength, Or.inl ⟨h, List.append_nil _⟩⟩
    | @refused k h =>
      cases hfault
      exact ⟨List.append_nil _, hlength, Or.inr ⟨k, h, rfl, rfl⟩⟩
  · rintro ⟨steps, levels, hcomes, rfl, hlength, ⟨h, rfl⟩ | ⟨k, h, rfl, rfl⟩⟩
    · exact ⟨steps, levels, _, hcomes, .faulted h, rfl, List.append_nil _, List.append_nil _, hlength⟩
    · exact ⟨steps, levels, _, hcomes, .refused h, rfl, rfl, List.append_nil _, hlength⟩

/-! ## What is left of streams -/

/-- Where a level has come to, its stream ends as it does from its start. -/
theorem Goes.endsIn_stream {levels last : List (Level Place)} {steps : List Step}
    {stream : Place → Script} (h : plan.Goes stream levels steps last)
    (hlevels : ∀ level ∈ levels, level.rest.EndsIn fault → (stream level.place).EndsIn fault) :
    ∀ level ∈ last, level.rest.EndsIn fault → (stream level.place).EndsIn fault := by
  induction h with
  | stay => exact hlevels
  | event _ ih | failure _ ih => exact ih (List.forall_mem_cons.mpr (List.forall_mem_cons.mp hlevels))
  | success _ ih =>
    exact ih (List.forall_mem_cons.mpr ⟨id, List.forall_mem_cons.mpr (List.forall_mem_cons.mp hlevels)⟩)
  | leave _ ih => exact ih (List.forall_mem_cons.mp hlevels).2

/-- A fault that the innermost stream has met is a fault of its parser. -/
theorem Comes.shows_faulted {steps : List Step} {levels : List (Level Place)}
    (h : plan.Comes rules text place steps levels) (hfault : Faults levels fault) :
    ∃ place limit shown, (plan.parser place).Shows rules text (plan.start place) limit shown ∧
      shown.stop = .faulted fault := by
  obtain ⟨n, hgoes, _⟩ := h
  obtain ⟨place', outer, rfl⟩ := hfault
  have hstream : (plan.stream rules text n place').EndsIn fault :=
    hgoes.endsIn_stream (List.forall_mem_singleton.mpr id) _ List.mem_cons_self rfl
  have htake := Script.take_eq_faulted_iff.mpr ⟨hstream, rfl, rfl, Nat.lt_succ_self _⟩
  exact ⟨place', _, _, Parser.shows_of_take_script htake, rfl⟩

end Plan

/-- A parser whose script is told by a plan shows what the traversal shows. -/
theorem Parser.shows_iff_plan {Place : Type} {plan : Plan Place} {place : Place} {rules : Rules}
    {text : Text} {p : Parser} {i : Int} {limit : Nat} {shown : Shown} (depth : Nat → Nat)
    (hp : p.Waits) (hdepth : ∀ n, n ≤ depth n)
    (hscript : ∀ n, p.script rules text n i = plan.tour (plan.stream rules text n) (depth n) place) :
    p.Shows rules text i limit shown ↔ plan.Shows rules text place limit shown := by
  rw [Plan.shows_iff_take_tour, shows_iff_take_script_of_waits hp]
  constructor
  · rintro ⟨n, hn⟩
    exact ⟨n, depth n, hscript n ▸ hn⟩
  · rintro ⟨n, m, hnm⟩
    refine ⟨max n m, ?_⟩
    rw [hscript]
    have hdeep : m ≤ depth (max n m) := Nat.le_trans (Nat.le_max_right n m) (hdepth _)
    exact Script.read_of_le (Plan.tour_le (Plan.stream_le (Nat.le_max_left n m)) hdeep place) hnm

end Backtrack
