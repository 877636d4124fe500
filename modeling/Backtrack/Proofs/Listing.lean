-- The law of lists: a step function may give its outcomes as a list, all at once, instead
-- of one after the other. Nobody who reads the stream or asks for a report can tell, but
-- for the moments at which the step function would have been asked.
import Backtrack.Grammar
import Backtrack.Proofs.Diagnosis
import Backtrack.Proofs.Exchange

namespace Backtrack

/-! ## The log -/

namespace Event

/-- The events are the same but for those left out of account, and the log is the same. -/
structure SameRun (own : Event → Bool) (events events' : List Event) : Prop where
  trace : SameTrace own events events'
  log : log events = log events'

variable {own : Event → Bool} {events events' : List Event}

/-- Events that are no records may be left out without a trace in the log. -/
theorem log_filter (hlog : ∀ record, ¬ own (.logged record)) (events : List Event) :
    log (events.filter (!own ·)) = log events := by
  unfold log
  rw [List.filterMap_filter]
  refine List.filterMap_congr fun e _ => ?_
  cases e with
  | logged record => simp [hlog record]
  | built | called | pulled | mapped | seen => simp [record?]

theorem SameTrace.sameRun (hlog : ∀ record, ¬ own (.logged record))
    (h : SameTrace own events events') : SameRun own events events' := by
  refine ⟨h, ?_⟩
  rw [← log_filter hlog events, ← log_filter hlog events']
  exact congrArg log h

end Event

/-! ## Step functions that give lists -/

/-- A script whose events are all left out of account goes on abreast with its outcomes. -/
theorem Script.Unbroken.abreast_ofOutcomes {own : Event → Bool} {s : Script} (hs : s.Unbroken)
    (he : ∀ e ∈ s.events, own e) : Abreast own (· = ·) s (.ofOutcomes s.outcomes) := by
  induction s with
  | done => exact .done
  | raised | unread => exact hs.elim
  | event e rest ih =>
    have hrest := ih hs fun e' he' => he e' (List.mem_cons_of_mem e he')
    exact .left (he e List.mem_cons_self) hrest
  | outcome o rest ih => exact .outcome rfl (ih hs he)

namespace Parser

/-- Wherever the one step function is called, it neither refuses nor breaks off, and records
nothing but events that are left out of account while it is asked for its outcomes. The
other gives the same outcomes as a list. -/
def Lists (own : Event → Bool) (step step' : Text → Int → Action Script) : Prop :=
  ∀ text i, ∃ s, (step text i).result = .ok s ∧ s.Unbroken ∧ (∀ e ∈ s.events, own e) ∧
    (step' text i).result = .ok (.ofOutcomes s.outcomes) ∧
    Event.SameTrace own (step text i).events (step' text i).events

/-- Step functions are exchanged for such as give lists, any of them, and nothing else is. -/
def Exchange.ofLists (own : Event → Bool) : Exchange where
  leaf l l' := l = l'
  custom step step' := step = step' ∨ Lists own step step'
  change c c' := c = c'

variable {own : Event → Bool} {text : Text} {p q : Parser} {rules rules' : Rules}

open Script (Abreast)

theorem Lists.calledAlike {step step' : Text → Int → Action Script} (h : Lists own step step')
    (i : Int) : CalledAlike own (step text i) (step' text i) := by
  obtain ⟨s, hs, _, _, hs', htrace⟩ := h text i
  refine ⟨htrace, fun fault => ?_⟩
  rw [hs, hs']
  simp

theorem Lists.abreast {step step' : Text → Int → Action Script} (h : Lists own step step')
    (i : Int) : Abreast own (· = ·) (.ofAction (step text i)) (.ofAction (step' text i)) := by
  obtain ⟨s, hs, hunbroken, he, hs', htrace⟩ := h text i
  simp only [Script.ofAction, hs, hs']
  exact .withEvents htrace (hunbroken.abreast_ofOutcomes he)

theorem ofLists_fair (own : Event → Bool) (text : Text) :
    (Exchange.ofLists own).Fair own (· = ·) text where
  outcomes := Outcome.eq_interchangeable
  leaf l l' i hl := by
    cases hl
    exact .refl (fun _ => rfl) _
  called step step' i hstep := by
    rcases hstep with rfl | hlists
    · exact ⟨.refl _, fun fault => Iff.rfl⟩
    · exact hlists.calledAlike i
  custom step step' i hstep := by
    rcases hstep with rfl | hlists
    · exact .refl (fun _ => rfl) _
    · exact hlists.abreast i
  change c c' i o o' hc ho := by
    cases hc
    cases ho
    exact .refl (fun _ => rfl) _

theorem ofLists_fair_flip (own : Event → Bool) (text : Text) :
    (Exchange.ofLists own).flip.Fair own (· = ·) text := by
  have hflip := (ofLists_fair own text).flip
  have hsame : (fun o' o : Outcome => o = o') = (· = ·) := by
    funext o' o
    exact propext eq_comm
  rwa [hsame] at hflip

theorem Exchanged.toEnd_ofLists (hp : p.Exchanged (.ofLists own) q) :
    p.toEnd.Exchanged (.ofLists own) q.toEnd := .mapOutcome rfl (.pair hp (.leaf rfl))

/-! ## Reports -/

variable {X : Exchange}

/-- What a parse answers, it answers with the parts of its parser exchanged, but for events
that are left out of account. -/
theorem Exchanged.parse (hX : X.Fair own (· = ·) text) (hrules : rules.Exchanged X rules')
    (hp : p.Exchanged X q) {fuel : Nat} {a : Action Report} (h : p.parse rules fuel text = some a) :
    ∃ a', (∃ enough, ∀ fuel ≥ enough, q.parse rules' fuel text = some a') ∧
      a.result = a'.result ∧ Event.SameTrace own a.events a'.events := by
  obtain ⟨n, k, r, hr, hsettled, rfl⟩ := read_script_of_parse h
  obtain ⟨r', hr', hagrees⟩ :=
    (hp.abreast_script hX hrules n 0).read (fun o o' ho => congrArg Outcome.isSuccess ho) hr
  obtain ⟨events, outcomes, stop⟩ := r
  obtain ⟨events', outcomes', stop'⟩ := r'
  obtain ⟨hevents, houtcomes, hstop⟩ := hagrees
  rw [List.forall₂_eq_eq_eq] at houtcomes
  simp only at hevents houtcomes hstop
  subst houtcomes hstop
  refine ⟨_, parse_of_read_script hr' hsettled, ?_⟩
  cases stop with
  | faulted fault => exact ⟨rfl, hevents⟩
  | satisfied | exhausted => exact ⟨rfl, hevents.append (.refl _)⟩

/-- Asked for all of the text or not, a report is that of a parse. -/
theorem Exchanged.reportOn (hX : X.Fair own (· = ·) text) (hrules : rules.Exchanged X rules')
    (hp : p.Exchanged X q) (hend : p.toEnd.Exchanged X q.toEnd) {toEnd : Bool} {fuel : Nat}
    {a : Action Report} (h : p.reportOn rules fuel text toEnd = some a) :
    ∃ a', q.Reports rules' text toEnd a' ∧ a.result = a'.result ∧
      Event.SameTrace own a.events a'.events := by
  cases toEnd with
  | false => exact hp.parse hX hrules h
  | true => exact hend.parse hX hrules h

/-! ## The law of lists -/

/-- Whatever the first parser shows and answers, the second shows and answers as well: the
same outcomes, the same end and the same fault after as many pulls, the same report and the
same value, the same log, and the same events but for those left out of account. -/
structure StandsFor (own : Event → Bool) (text : Text) (rules : Rules) (p : Parser)
    (rules' : Rules) (q : Parser) : Prop where
  shows : ∀ i limit events outcomes stop, p.Shows rules text i limit ⟨events, outcomes, stop⟩ →
    ∃ events', q.Shows rules' text i limit ⟨events', outcomes, stop⟩ ∧
      Event.SameRun own events events'
  answers : ∀ toEnd report answer, p.Answers rules text toEnd report answer →
    ∃ report' answer', q.Answers rules' text toEnd report' answer' ∧
      report.result = report'.result ∧ Event.SameRun own report.events report'.events ∧
      answer.result = answer'.result ∧ Event.SameRun own answer.events answer'.events

theorem Exchanged.standsFor (hX : X.Fair own (· = ·) text) (hrules : rules.Exchanged X rules')
    (hp : p.Exchanged X q) (hend : p.toEnd.Exchanged X q.toEnd)
    (hlog : ∀ record, ¬ own (.logged record)) : StandsFor own text rules p rules' q where
  shows i limit events outcomes stop h := by
    obtain ⟨⟨events', outcomes', stop'⟩, hshows, hevents, houtcomes, hstop⟩ := hp.shows hX hrules h
    rw [List.forall₂_eq_eq_eq] at houtcomes
    simp only at hevents houtcomes hstop
    subst houtcomes hstop
    exact ⟨events', hshows, hevents.sameRun hlog⟩
  answers toEnd report answer h := by
    obtain ⟨enough, he⟩ := h
    obtain ⟨hreport, hanswer⟩ := he enough le_rfl
    obtain ⟨report', hreports, hresult, hevents⟩ := hp.reportOn hX hrules hend hreport
    obtain rfl := Option.some.inj (hanswer.symm.trans (parseOrRaise_of_reportOn hreport))
    refine ⟨report', _, hreports.answers, hresult, hevents.sameRun hlog, ?_, ?_⟩
    · rw [result_valueOrRaise, result_valueOrRaise, hresult]
    · rw [events_valueOrRaise, events_valueOrRaise]
      exact hevents.sameRun hlog

/-- Any step functions of a parser and of the recursive parsers that it uses may give lists
instead of streams, if they neither refuse nor break off: what is shown from any offset in any
number of pulls, what is reported and what is raised stays the same, and so does the log. The
trace stays the same but for the moments at which these functions were asked. -/
theorem lists_may_stand_for_streams (hlog : ∀ record, ¬ own (.logged record))
    (hrules : rules.Exchanged (.ofLists own) rules') (h : p.Exchanged (.ofLists own) q)
    (text : Text) : StandsFor own text rules p rules' q ∧ StandsFor own text rules' q rules p :=
  ⟨h.standsFor (ofLists_fair own text) hrules h.toEnd_ofLists hlog,
    h.flip.standsFor (ofLists_fair_flip own text) hrules.flip h.toEnd_ofLists.flip hlog⟩

/-! ## Probes -/

/-- Being asked for an outcome. -/
def pulledFrom (id : String) : Event → Bool
  | .pulled id' _ => id' == id
  | _ => false

/-- The entry is an outcome, never left out. -/
def Certain (entry : ProbeEntry) : Prop := ∃ o, entry = .absolute o ∨ entry = .relative o

theorem lazyScript_certain {id : String} (text : Text) (i : Int) {entries : List ProbeEntry}
    (h : ∀ entry ∈ entries, Certain entry) (n : Nat) :
    let s := Probe.lazyScript id text i n entries
    s.Unbroken ∧ (∀ e ∈ s.events, pulledFrom id e) ∧
      s.outcomes = entries.filterMap (·.outcome? i) := by
  induction entries generalizing n with
  | nil => exact ⟨trivial, nofun, rfl⟩
  | cons entry entries ih =>
    obtain ⟨hunbroken, hevents, houtcomes⟩ :=
      ih (fun entry' he => h entry' (List.mem_cons_of_mem entry he)) (n + 1)
    obtain ⟨o, rfl | rfl⟩ := h entry List.mem_cons_self
    all_goals
      refine ⟨hunbroken, fun e he => ?_, congrArg (_ :: ·) houtcomes⟩
      rcases List.mem_cons.mp he with rfl | he
      · simp [pulledFrom]
      · exact hevents e he

/-- A probe whose entries are outcomes is asked for them one after the other, or has them
ready as a list. -/
theorem lists_probe (id : String) {entries : List ProbeEntry}
    (h : ∀ entry ∈ entries, Certain entry) :
    Lists (pulledFrom id) (Probe.step ⟨id, .lazily entries⟩) (Probe.step ⟨id, .atOnce entries⟩) := by
  intro text i
  obtain ⟨hunbroken, hevents, houtcomes⟩ := lazyScript_certain text i h 1
  have hasked : Probe.step ⟨id, .lazily entries⟩ text i =
      ⟨[.called id i], .ok (Probe.lazyScript id text i 1 entries)⟩ := rfl
  have hready : Probe.step ⟨id, .atOnce entries⟩ text i =
      ⟨[.called id i], .ok (.ofOutcomes (entries.filterMap (·.outcome? i)))⟩ := rfl
  rw [hasked, hready, ← houtcomes]
  exact ⟨_, rfl, hunbroken, hevents, rfl, .refl _⟩

/-- A step function at every place of the text, as often as it will. -/
def everywhere (step : Text → Int → Action Script) : Rules :=
  ⟨#[some (((endOfText.not.keepSecond (custom step)).cons (ref 0)).or (succeed (.list [])))]⟩

theorem everywhere_exchanged {step step' : Text → Int → Action Script} (h : Lists own step step') :
    (everywhere step).Exchanged (.ofLists own) (everywhere step') := by
  intro handle
  match handle with
  | 0 =>
    have hone : (endOfText.not.keepSecond (custom step)).Exchanged (.ofLists own)
        (endOfText.not.keepSecond (custom step')) :=
      .mapOutcome rfl (.pair (.not (.leaf rfl)) (.custom (Or.inr h)))
    exact .some (.or (.mapOutcome rfl (.pair hone (.ref 0))) (.leaf rfl))
  | n + 1 =>
    have hnone : ∀ step, (everywhere step).body? (n + 1) = none := by
      simp [Rules.body?, everywhere]
    rw [hnone, hnone]
    exact .none

/-- Left when two letters are found, the step functions of both places are half read. -/
theorem two_letters_found_in_lists :
    let entries : List ProbeEntry := [.relative (.failure 0 "more"), .relative (.success 1 (.str "a")),
      .relative (.success 0 .none)]
    let asked := Probe.step ⟨"p", .lazily entries⟩
    let ready := Probe.step ⟨"p", .atOnce entries⟩
    let outcomes : List Outcome :=
      [.failure 0 "more", .failure 1 "more", .failure 2 "not string ",
        .success 2 (.list [.str "a", .str "a"])]
    let own := pulledFrom "p"
    (∀ record, ¬ own (.logged record)) ∧
      (everywhere asked).Exchanged (.ofLists own) (everywhere ready) ∧
      (ref 0).Exchanged (.ofLists own) (ref 0) ∧
      (ref 0).Shows (everywhere asked) ['a', 'b'] 0 4
        ⟨[.called "p" 0, .pulled "p" 1, .pulled "p" 2, .called "p" 1, .pulled "p" 1, .pulled "p" 2],
          outcomes, .satisfied⟩ ∧
      ∃ events, (ref 0).Shows (everywhere ready) ['a', 'b'] 0 4 ⟨events, outcomes, .satisfied⟩ ∧
        events.filter (!own ·) = [.called "p" 0, .called "p" 1] := by
  intro entries asked ready outcomes own
  have hentries : ∀ entry ∈ entries, Certain entry := by simp [entries, Certain]
  have hlog : ∀ record, ¬ own (.logged record) := by simp [own, pulledFrom]
  have hrules := everywhere_exchanged (lists_probe "p" hentries)
  have hscript : ((ref 0).script (everywhere asked) ['a', 'b'] 3 0).take 4 =
      some ⟨[.called "p" 0, .pulled "p" 1, .pulled "p" 2, .called "p" 1, .pulled "p" 1,
        .pulled "p" 2], outcomes, .satisfied⟩ := by
    simp only [asked, entries, outcomes]
    rfl
  have hshows := shows_of_take_script hscript
  obtain ⟨hthere, _⟩ := lists_may_stand_for_streams hlog hrules (.ref 0) ['a', 'b']
  obtain ⟨events, hready, hsame⟩ := hthere.shows 0 4 _ outcomes .satisfied hshows
  exact ⟨hlog, hrules, .ref 0, hshows, events, hready, hsame.trace.symm⟩

end Parser

end Backtrack
