-- From scripts to streams: a stream that is asked again and again shows the
-- script of its parser, outcome after outcome and each with the events before
-- it. The induction is on the script for what a running stream shows, and on
-- the limit and the parser for what the step call begins.
import Backtrack.Proofs.Fuel
import Backtrack.Proofs.Script.Reading

namespace Backtrack

open Search

/-! ## The rules of pulling -/

namespace Stream

variable {rules : Rules} {text : Text} {s inner : Stream} {events : List Event}
  {next : Script.Next Stream} {k : Nat → Script.Next Stream → Search (Script.Next Stream)}

/-- A stream that asks another one first meets its faults. -/
theorem pulls_error {fault : Fault}
    (hk : ∀ n, s.pull rules text (n + 1) = inner.pull rules text n >>= k n)
    (h : inner.Pulls rules text ⟨events, .error fault⟩) :
    s.Pulls rules text ⟨events, .error fault⟩ := by
  refine Answers.of_succ ?_
  simp only [hk]
  exact Answers.bind_error h

/-- A stream that asks another one first goes on with its answer. -/
theorem pulls_next {b : Action (Script.Next Stream)}
    (hk : ∀ n, s.pull rules text (n + 1) = inner.pull rules text n >>= k n)
    (h : inner.Pulls rules text ⟨events, .ok next⟩) (hg : Growing fun n => k n next)
    (hb : Answers (fun n => k n next) b) : s.Pulls rules text (b.after events) := by
  refine Answers.of_succ ?_
  simp only [hk]
  exact Answers.bind_ok (pull_growing inner) hg h hb

/-- A stream that asks another one first may need nothing more to answer. -/
theorem pulls_answer {x : Script.Next Stream}
    (hk : ∀ n, s.pull rules text (n + 1) = inner.pull rules text n >>= k n)
    (h : inner.Pulls rules text ⟨events, .ok next⟩) (hx : ∀ n, k n next = pure x) :
    s.Pulls rules text ⟨events, .ok x⟩ := by
  have hb := pulls_next hk h (b := pure x) (by simp only [hx]; exact Growing.const _) ⟨0, hx 0⟩
  simpa using hb

theorem pulls_changed {change : Outcome → Int → Action Outcome} {i : Int} {o : Outcome}
    {inner' : Stream} {b : Action (Script.Next Stream)}
    (h : inner.Pulls rules text ⟨events, .ok (.yielded o inner')⟩)
    (hb : (Search.ofAction (change o i) >>= fun o' =>
      pure (Script.Next.yielded o' (changed change i inner'))) = some b) :
    (changed change i inner).Pulls rules text (b.after events) := by
  refine Answers.of_succ ?_
  simp only [pull]
  exact Answers.bind_ok (pull_growing inner) (Growing.const _) h ⟨0, hb⟩

/-- A waiting parser that has no part to start goes on as another stream. -/
theorem pulls_waiting {p : Parser} {i : Int} {a : Action (Script.Next Stream)}
    (hp : ∀ n, p.resume rules text n i = pure s) (h : s.Pulls rules text a) :
    (waiting p i).Pulls rules text a := by
  refine Answers.of_succ ?_
  simp only [pull, hp, Search.pure_bind]
  exact h

/-- A stream that starts a parser and asks what that answers. -/
theorem start_pull_growing (p : Parser) (i : Int) (wrap : Stream → Stream) :
    Growing fun n => p.start rules text n i >>= fun s => (wrap s).pull rules text n :=
  (Parser.start_growing p i).bind fun s => pull_growing (wrap s)

end Stream

namespace Script

/-! ## What a stream shows -/

/-- Asked again and again, the stream shows the script, the first time with the
given events before it. Nothing is said from where the script stays unread. -/
def ShownBy (rules : Rules) (text : Text) : List Event → Script → Stream → Prop
  | events, done, s => s.Pulls rules text ⟨events, .ok .ended⟩
  | events, raised fault, s => s.Pulls rules text ⟨events, .error fault⟩
  | _, unread, _ => True
  | events, event e rest, s => rest.ShownBy rules text (events ++ [e]) s
  | events, outcome o rest, s =>
    ∃ s', s.Pulls rules text ⟨events, .ok (.yielded o s')⟩ ∧ rest.ShownBy rules text [] s'

/-- The step call of a parser at an offset begins the script, and the stream that it
answers goes on with it. -/
inductive OpenedBy (rules : Rules) (text : Text) (p : Parser) (i : Int) : Script → Prop where
  | unread : OpenedBy rules text p i unread
  | raised {events : List Event} {fault : Fault} :
      p.Starts rules text i ⟨events, .error fault⟩ →
      OpenedBy rules text p i (withEvents events (raised fault))
  | running {events : List Event} {s : Stream} {t : Script} :
      p.Starts rules text i ⟨events, .ok s⟩ → t.ShownBy rules text [] s →
      OpenedBy rules text p i (withEvents events t)

variable {rules : Rules} {text : Text}

theorem shownBy_withEvents {events later : List Event} {t : Script} {s : Stream} :
    (withEvents later t).ShownBy rules text events s ↔
      t.ShownBy rules text (events ++ later) s := by
  induction later generalizing events with
  | nil => simp
  | cons e later ih =>
    rw [withEvents_cons, ShownBy, ih, List.append_assoc]
    rfl

/-- A stream that answers as another one, after some events, shows what that one
shows, after these events. -/
theorem ShownBy.after {t : Script} {s s' : Stream} {earlier events : List Event}
    (hs : ∀ a, s'.Pulls rules text a → s.Pulls rules text (a.after earlier))
    (h : t.ShownBy rules text events s') : t.ShownBy rules text (earlier ++ events) s := by
  induction t generalizing events with
  | done | raised => exact hs _ h
  | unread => trivial
  | event e rest ih =>
    rw [ShownBy, List.append_assoc]
    exact ih h
  | outcome o rest ih =>
    obtain ⟨r, hr, hrest⟩ := h
    exact ⟨r, hs _ hr, hrest⟩

/-! ## Running streams -/

theorem next_event {e : Event} {t : Script} {a : Action (Next Script)} (h : t.next = some a) :
    (event e t).next = some (a.after [e]) := by
  rw [next]
  exact Search.bind_ok (x := Search.ofAction (Action.emit e)) (f := fun _ => t.next) rfl h

theorem next_withEvents {t : Script} {a : Action (Next Script)} (events : List Event)
    (h : t.next = some a) : (withEvents events t).next = some (a.after events) := by
  induction events with
  | nil => exact h
  | cons e events ih => exact next_event ih

/-- A script that is at hand is shown as it stands. -/
theorem shownBy_items (events : List Event) (t : Script) :
    t.ShownBy rules text events (.items (withEvents events t)) := by
  induction t generalizing events with
  | done =>
    have hn := next_withEvents events (t := done) (a := pure .ended) rfl
    rw [Action.pure_after] at hn
    exact ⟨1, Search.bind_answer hn rfl⟩
  | raised fault =>
    have hn := next_withEvents events (t := raised fault) (a := Action.raise fault) rfl
    rw [Action.raise_after] at hn
    exact ⟨1, Search.bind_error hn _⟩
  | unread => trivial
  | event e rest ih =>
    have h := ih (events ++ [e])
    rw [← withEvents_withEvents] at h
    exact h
  | outcome o rest ih =>
    have hn := next_withEvents events (t := outcome o rest) (a := pure (.yielded o rest)) rfl
    rw [Action.pure_after] at hn
    exact ⟨.items rest, ⟨1, Search.bind_answer hn rfl⟩, ih []⟩

/-- A change of scripts that keeps all that stands before the first outcome. -/
structure Strict (F : Script → Script) : Prop where
  unread : F unread = unread
  raised : ∀ fault, F (raised fault) = raised fault
  event : ∀ e t, F (event e t) = event e (F t)

theorem Strict.withEvents {F : Script → Script} (hF : Strict F) (events : List Event) (t : Script) :
    F (withEvents events t) = Script.withEvents events (F t) := by
  induction events with
  | nil => rfl
  | cons e events ih => rw [withEvents_cons, hF.event, ih, withEvents_cons]

/-- A stream that starts a parser, and goes on with the stream that is made of its
answer, shows what is made of the script that the parser opens. -/
theorem OpenedBy.shownBy {q : Parser} {i : Int} {u : Script} {events : List Event} {s : Stream}
    {w : Stream → Stream} {F : Script → Script} (hu : u.OpenedBy rules text q i) (hF : Strict F)
    (hw : ∀ t s', t.ShownBy rules text [] s' → (F t).ShownBy rules text [] (w s'))
    (hs : ∀ a, Answers (fun n => q.start rules text n i >>= fun s' => (w s').pull rules text n) a →
      s.Pulls rules text (a.after events)) : (F u).ShownBy rules text events s := by
  cases hu with
  | unread => rw [hF.unread]; trivial
  | raised h =>
    rw [hF.withEvents, hF.raised, shownBy_withEvents]
    exact hs _ (Answers.bind_error h)
  | @running later s' t h ht =>
    rw [hF.withEvents, shownBy_withEvents, ← List.append_nil (events ++ later)]
    refine ShownBy.after (fun a ha => ?_) (hw t s' ht)
    rw [← Action.after_after]
    exact hs _ (Answers.bind_ok (Parser.start_growing q i) (Stream.pull_growing (w s')) h ha)

/-- A choice shows its first part, and then its second part from the same start. -/
theorem ShownBy.either {t u : Script} {events : List Event} {left : Stream} {q : Parser} {i : Int}
    (ht : t.ShownBy rules text events left) (hu : u.OpenedBy rules text q i) :
    (t.append u).ShownBy rules text events (.either left q i) := by
  induction t generalizing events left with
  | done =>
    refine hu.shownBy (w := fun s => s) (F := fun t => t) ⟨rfl, fun _ => rfl, fun _ _ => rfl⟩
      (fun _ _ h => h) fun a ha => ?_
    exact Stream.pulls_next (fun _ => rfl) ht (Stream.start_pull_growing q i fun s => s) ha
  | raised fault => exact Stream.pulls_error (fun _ => rfl) ht
  | unread => trivial
  | event e rest ih => exact ih ht
  | outcome o rest ih =>
    obtain ⟨left', hp, hrest⟩ := ht
    exact ⟨.either left' q i, Stream.pulls_answer (fun _ => rfl) hp fun _ => rfl, ih hrest⟩

/-- A sequence inside its second part shows that part, and then what it shows
outside of it. -/
theorem ShownBy.second {t u : Script} {events : List Event} {value : Value} {inner left : Stream}
    {q : Parser} (ht : t.ShownBy rules text events inner)
    (hu : u.ShownBy rules text [] (.first left q)) :
    ((t.expand fun o => single (o.pairedWith value)).append u).ShownBy rules text events
      (.second value inner left q) := by
  induction t generalizing events inner with
  | done =>
    rw [← List.append_nil events]
    refine hu.after fun a ha => ?_
    exact Stream.pulls_next (fun _ => rfl) ht (Stream.pull_growing _) ha
  | raised fault => exact Stream.pulls_error (fun _ => rfl) ht
  | unread => trivial
  | event e rest ih => exact ih ht
  | outcome o rest ih =>
    obtain ⟨inner', hp, hrest⟩ := ht
    exact ⟨.second value inner' left q, Stream.pulls_answer (fun _ => rfl) hp fun _ => rfl,
      ih hrest⟩

/-- A sequence shows its first part with the second part in place of each success. -/
theorem ShownBy.first {t : Script} {events : List Event} {left : Stream} {q : Parser}
    {second : Int → Script} (ht : t.ShownBy rules text events left)
    (hq : ∀ j, (second j).OpenedBy rules text q j) :
    (t.pairWith second).ShownBy rules text events (.first left q) := by
  induction t generalizing events left with
  | done => exact Stream.pulls_answer (fun _ => rfl) ht fun _ => rfl
  | raised fault => exact Stream.pulls_error (fun _ => rfl) ht
  | unread => trivial
  | event e rest ih => exact ih ht
  | outcome o rest ih =>
    obtain ⟨left', hp, hrest⟩ := ht
    have hu := ih hrest
    cases o with
    | failure index expect =>
      exact ⟨.first left' q, Stream.pulls_answer (fun _ => rfl) hp fun _ => rfl, hu⟩
    | success index value =>
      refine (hq index).shownBy (w := fun inner => .second value inner left' q)
        (F := fun t => (t.expand fun o => single (o.pairedWith value)).append (rest.pairWith second))
        ⟨rfl, fun _ => rfl, fun _ _ => rfl⟩ (fun t inner h => h.second hu) fun a ha => ?_
      exact Stream.pulls_next (fun _ => rfl) hp (Stream.start_pull_growing q index _) ha

/-- A stream whose outcomes are changed shows them changed, each with the events of
its change behind its own. -/
theorem ShownBy.changed {t : Script} {events : List Event} {inner : Stream}
    {change : Outcome → Int → Action Outcome} {i : Int} (ht : t.ShownBy rules text events inner) :
    (t.change (change · i)).ShownBy rules text events (.changed change i inner) := by
  induction t generalizing events inner with
  | done => exact Stream.pulls_answer (fun _ => rfl) ht fun _ => rfl
  | raised fault => exact Stream.pulls_error (fun _ => rfl) ht
  | unread => trivial
  | event e rest ih => exact ih ht
  | outcome o rest ih =>
    obtain ⟨inner', hp, hrest⟩ := ht
    have hu := ih hrest
    rw [Script.change, Script.expand, withEvents_append, shownBy_withEvents]
    rcases hc : change o i with ⟨later, fault | o'⟩
    · exact Stream.pulls_changed hp (Search.bind_error (congrArg some hc) _)
    · exact ⟨.changed change i inner',
        Stream.pulls_changed hp (Search.bind_answer (congrArg some hc) rfl), hu⟩

/-- A stream of which only the first success matters shows one outcome, behind the
events up to it. -/
theorem ShownBy.negated {t : Script} {events : List Event} {inner : Stream} {i : Int}
    (ht : t.ShownBy rules text events inner) :
    (t.negate text i).ShownBy rules text events (.negated i inner) := by
  induction t generalizing events inner with
  | done =>
    exact ⟨.ended, Stream.pulls_answer (fun _ => rfl) ht fun _ => rfl, shownBy_items [] done⟩
  | raised fault => exact Stream.pulls_error (fun _ => rfl) ht
  | unread => trivial
  | event e rest ih => exact ih ht
  | outcome o rest ih =>
    obtain ⟨inner', hp, hrest⟩ := ht
    cases o with
    | success index value =>
      exact ⟨.ended, Stream.pulls_answer (fun _ => rfl) hp fun _ => rfl, shownBy_items [] done⟩
    | failure index expect =>
      rw [← List.append_nil events]
      refine ShownBy.after (fun a ha => ?_) (ih hrest)
      exact Stream.pulls_next (fun _ => rfl) hp (Stream.pull_growing _) ha

/-! ## Waiting parsers -/

/-- A waiting parser that has no part to start shows what the stream shows that it
becomes. -/
theorem ShownBy.waiting {p : Parser} {i : Int} {t : Script} {s : Stream}
    (ht : t.ShownBy rules text [] s) (hp : ∀ n, p.resume rules text n i = pure s) :
    t.ShownBy rules text [] (.waiting p i) := by
  have h : t.ShownBy rules text ([] ++ []) (.waiting p i) :=
    ht.after fun a ha => Stream.pulls_waiting hp ha
  exact h

/-- A waiting parser that starts a part of its own shows what it makes of the
script that the part opens. -/
theorem OpenedBy.waiting {p whole : Parser} {i : Int} {u : Script} {w : Stream → Stream}
    {F : Script → Script} (hu : u.OpenedBy rules text p i) (hF : Strict F)
    (hw : ∀ t s, t.ShownBy rules text [] s → (F t).ShownBy rules text [] (w s))
    (hp : ∀ n, whole.resume rules text n i = do return w (← p.start rules text n i)) :
    (F u).ShownBy rules text [] (.waiting whole i) := by
  refine hu.shownBy hF hw fun a ha => ?_
  refine Answers.of_succ ?_
  simp only [Stream.pull, hp, bind_wrap_bind]
  exact ha

/-- The script of a parser that does nothing at the step call is opened by it. -/
theorem ShownBy.openedBy {p : Parser} {i : Int} {t : Script}
    (ht : t.ShownBy rules text [] (.waiting p i))
    (hp : p.start rules text 1 i = pure (.waiting p i)) : t.OpenedBy rules text p i := by
  have h : (withEvents [] t).OpenedBy rules text p i := .running ⟨1, hp⟩ ht
  exact h

theorem shownBy_leaf (l : Leaf) (i : Int) :
    (ofResult (l.attempt text i)).ShownBy rules text [] (.waiting (.leaf l) i) :=
  (shownBy_items [] _).waiting fun _ => rfl

theorem shownBy_pair {p q : Parser} {i : Int} {t : Script} {second : Int → Script}
    (ht : t.OpenedBy rules text p i) (hq : ∀ j, (second j).OpenedBy rules text q j) :
    (t.pairWith second).ShownBy rules text [] (.waiting (p.pair q) i) :=
  ht.waiting ⟨rfl, fun _ => rfl, fun _ _ => rfl⟩ (fun _ _ h => h.first hq) fun _ => rfl

theorem shownBy_or {p q : Parser} {i : Int} {t u : Script} (ht : t.OpenedBy rules text p i)
    (hu : u.OpenedBy rules text q i) :
    (t.append u).ShownBy rules text [] (.waiting (p.or q) i) :=
  ht.waiting ⟨rfl, fun _ => rfl, fun _ _ => rfl⟩ (fun _ _ h => h.either hu) fun _ => rfl

theorem shownBy_mapOutcome (change : Outcome → Int → Action Outcome) {p : Parser} {i : Int}
    {t : Script} (ht : t.OpenedBy rules text p i) :
    (t.change (change · i)).ShownBy rules text [] (.waiting (p.mapOutcome change) i) :=
  ht.waiting ⟨rfl, fun _ => rfl, fun _ _ => rfl⟩ (fun _ _ h => h.changed) fun _ => rfl

theorem shownBy_not {p : Parser} {i : Int} {t : Script} (ht : t.OpenedBy rules text p i) :
    (t.negate text i).ShownBy rules text [] (.waiting p.not i) :=
  ht.waiting ⟨rfl, fun _ => rfl, fun _ _ => rfl⟩ (fun _ _ h => h.negated) fun _ => rfl

/-! ## Parsers and their scripts -/

theorem openedBy_custom (step : Text → Int → Action Script) (i : Int) :
    (ofAction (step text i)).OpenedBy rules text (.custom step) i := by
  rcases hs : step text i with ⟨events, fault | t⟩
  · exact .raised ⟨1, Search.bind_error (congrArg some hs) _⟩
  · exact .running ⟨1, Search.bind_answer (congrArg some hs) rfl⟩ (shownBy_items [] t)

theorem openedBy_ref {handle : Handle} {body : Parser} {i : Int} {t : Script}
    (hb : rules.body? handle = some body) (ht : t.OpenedBy rules text body i) :
    t.OpenedBy rules text (.ref handle) i := by
  have hs : ∀ a, body.Starts rules text i a → (Parser.ref handle).Starts rules text i a := by
    rintro a ⟨n, hn⟩
    refine ⟨n + 1, ?_⟩
    simp only [Parser.start, hb]
    exact hn
  cases ht with
  | unread => exact .unread
  | raised h => exact .raised (hs _ h)
  | running h ht => exact .running (hs _ h) ht

theorem openedBy_ref_undefined {handle : Handle} (hb : rules.body? handle = none) (i : Int) :
    (raised .undefinedHandle).OpenedBy rules text (.ref handle) i := by
  have hs : (Parser.ref handle).Starts rules text i ⟨[], .error .undefinedHandle⟩ := by
    refine ⟨1, ?_⟩
    simp only [Parser.start, hb]
    rfl
  exact .raised hs

/-- The induction is on the number of repetitions: those behind the first one are a
parser again, which waits to be asked. -/
theorem openedBy_many {p : Parser} {body : Int → Script}
    (hp : ∀ i, (body i).OpenedBy rules text p i) (n : Nat) (i : Int) :
    (Parser.repeated body n i).OpenedBy rules text p.many i := by
  induction n generalizing i with
  | zero => exact .unread
  | succ n ih =>
    have hone := shownBy_mapOutcome Parser.requireProgress (hp i)
    have hpair := shownBy_pair (hone.openedBy rfl) ih
    have hmore := shownBy_mapOutcome (Parser.onValue Parser.consValues) (hpair.openedBy rfl)
    have hstep := shownBy_or (hmore.openedBy rfl)
      ((shownBy_leaf (.succeed (.list [])) i).openedBy rfl)
    exact (hstep.waiting fun _ => rfl).openedBy rfl

/-- A parser opens its script if recursive parsers do. -/
theorem openedBy_scriptWith {n : Nat} {recursive : Handle → Int → Script}
    (hr : ∀ handle i, (recursive handle i).OpenedBy rules text (.ref handle) i) (p : Parser)
    (i : Int) : (p.scriptWith text n recursive i).OpenedBy rules text p i := by
  induction p generalizing i with
  | leaf l => exact (shownBy_leaf l i).openedBy rfl
  | custom step => exact openedBy_custom step i
  | pair p q ihp ihq => exact (shownBy_pair (ihp i) ihq).openedBy rfl
  | or p q ihp ihq => exact (shownBy_or (ihp i) (ihq i)).openedBy rfl
  | mapOutcome change p ih => exact (shownBy_mapOutcome change (ih i)).openedBy rfl
  | not p ih => exact (shownBy_not (ih i)).openedBy rfl
  | many p ih => exact openedBy_many ih n i
  | ref handle => exact hr handle i

/-- Every parser opens its script. -/
theorem openedBy_script (n : Nat) (p : Parser) (i : Int) :
    (p.script rules text n i).OpenedBy rules text p i := by
  induction n generalizing p i with
  | zero => exact openedBy_scriptWith (fun _ _ => .unread) p i
  | succ n ih =>
    refine openedBy_scriptWith (fun handle i => ?_) p i
    rcases hb : rules.body? handle with _ | body
    · exact openedBy_ref_undefined hb i
    · exact openedBy_ref hb (ih body i)

end Script

/-! ## Reading -/

/-- What a reading shows, apart from the stream that is left. -/
def Stream.Reading.shown (r : Stream.Reading) : Shown := ⟨r.events, r.outcomes, r.stop⟩

namespace Stream

variable {rules : Rules} {text : Text} {s : Stream} {events : List Event} {fuel : Nat}
  {wanted : Outcome → Bool}

theorem read_error {fault : Fault} (h : s.pull rules text fuel = some ⟨events, .error fault⟩)
    (k : Nat) : s.read rules text fuel wanted (k + 1) =
      some ⟨events, [], .faulted fault, ended⟩ := by
  simp only [read, advance, h]
  rfl

theorem read_ended (h : s.pull rules text fuel = some ⟨events, .ok .ended⟩) (k : Nat) :
    s.read rules text fuel wanted (k + 1) = some ⟨events, [], .exhausted, ended⟩ := by
  simp only [read, advance, h]
  rfl

theorem read_wanted {o : Outcome} {s' : Stream}
    (h : s.pull rules text fuel = some ⟨events, .ok (.yielded o s')⟩) (hw : wanted o = true)
    (k : Nat) : s.read rules text fuel wanted (k + 1) = some ⟨events, [o], .satisfied, s'⟩ := by
  simp only [read, advance, h, Option.bind_eq_bind, Option.bind_some, if_pos hw]
  rfl

theorem read_unwanted {o : Outcome} {s' : Stream}
    (h : s.pull rules text fuel = some ⟨events, .ok (.yielded o s')⟩) (hw : ¬wanted o = true)
    (k : Nat) : s.read rules text fuel wanted (k + 1) =
      (s'.read rules text fuel wanted k).map fun r =>
        { r with events := events ++ r.events, outcomes := o :: r.outcomes } := by
  simp only [read, advance, h, Option.bind_eq_bind, Option.bind_some, if_neg hw]
  cases s'.read rules text fuel wanted k <;> rfl

end Stream

namespace Script

variable {rules : Rules} {text : Text}

/-- A stream that shows a script reads as the script does, however far it is read:
one amount of fuel is enough for all. -/
theorem ShownBy.read {t : Script} {events : List Event} {s : Stream}
    (h : t.ShownBy rules text events s) :
    ∃ fuel, ∀ wanted k r, (withEvents events t).read wanted (k + 1) = some r →
      ∃ r', s.read rules text fuel wanted (k + 1) = some r' ∧ r'.shown = r := by
  induction t generalizing events s with
  | done =>
    obtain ⟨fuel, hp⟩ := h
    refine ⟨fuel, fun wanted k r hr => ?_⟩
    rw [read_withEvents] at hr
    cases hr
    exact ⟨_, Stream.read_ended hp k, by simp [Stream.Reading.shown]⟩
  | raised fault =>
    obtain ⟨fuel, hp⟩ := h
    refine ⟨fuel, fun wanted k r hr => ?_⟩
    rw [read_withEvents] at hr
    cases hr
    exact ⟨_, Stream.read_error hp k, by simp [Stream.Reading.shown]⟩
  | unread =>
    refine ⟨0, fun wanted k r hr => ?_⟩
    rw [read_withEvents] at hr
    cases hr
  | event e rest ih =>
    obtain ⟨fuel, hf⟩ := ih h
    refine ⟨fuel, fun wanted k r hr => hf wanted k r ?_⟩
    rw [← withEvents_withEvents]
    exact hr
  | outcome o rest ih =>
    obtain ⟨s', ⟨fuel, hp⟩, hrest⟩ := h
    obtain ⟨fuel', hf⟩ := ih hrest
    have hp' := (Stream.pull_growing s).of_le (Nat.le_max_left fuel fuel') hp
    refine ⟨max fuel fuel', fun wanted k r hr => ?_⟩
    rw [read_withEvents, Script.read] at hr
    by_cases hw : wanted o = true
    · rw [if_pos hw] at hr
      cases hr
      exact ⟨_, Stream.read_wanted hp' hw k, by simp [Stream.Reading.shown]⟩
    · rw [if_neg hw] at hr
      have hlater : ∃ q q', rest.read wanted k = some q ∧
          s'.read rules text (max fuel fuel') wanted k = some q' ∧ q'.shown = q := by
        cases k with
        | zero => exact ⟨_, _, read_none wanted rest, rfl, rfl⟩
        | succ k =>
          rcases hq : rest.read wanted (k + 1) with _ | q
          · rw [hq] at hr; cases hr
          · obtain ⟨q', hq', hshown⟩ := hf wanted k q hq
            exact ⟨q, q', rfl, Stream.read_of_le (Nat.le_max_right fuel fuel') hq', hshown⟩
      obtain ⟨q, q', hq, hq', hshown⟩ := hlater
      rw [hq] at hr
      cases hr
      refine ⟨{ q' with events := events ++ q'.events, outcomes := o :: q'.outcomes }, ?_, ?_⟩
      · rw [Stream.read_unwanted hp' hw, hq']
        rfl
      · rw [← hshown]
        rfl

end Script

end Backtrack
