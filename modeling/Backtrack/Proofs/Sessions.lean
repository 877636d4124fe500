-- The law of sessions: streams of one session do not disturb each other. A command changes
-- the stream that it is about, the table grows, and nothing else that matters to another
-- stream. So a run of commands can be compared with one of which only the commands about
-- one stream are left, and one invariant carries the comparison from command to command.
import Backtrack.Proofs.Building
import Backtrack.Session

namespace Backtrack

namespace Session

/-! ## Runs -/

/-- Carry out commands in their order. Each answer stands beside its command. -/
def run (fuel : Nat) : Session → List Command → Option (List (Command × Action Answer) × Session)
  | s, [] => some ([], s)
  | s, c :: cs => do
    let (answer, s) ← s.exec fuel c
    let (answers, s) ← s.run fuel cs
    return ((c, answer) :: answers, s)

theorem run_cons {fuel : Nat} {s s' : Session} {c : Command} {cs : List Command}
    {answers : List (Command × Action Answer)} (h : s.run fuel (c :: cs) = some (answers, s')) :
    ∃ answer next later, s.exec fuel c = some (answer, next) ∧
      next.run fuel cs = some (later, s') ∧ answers = (c, answer) :: later := by
  obtain ⟨⟨answer, next⟩, hexec, h⟩ := Option.bind_eq_some_iff.mp h
  obtain ⟨⟨later, last⟩, hrun, h⟩ := Option.bind_eq_some_iff.mp h
  cases h
  exact ⟨answer, next, later, hexec, hrun, rfl⟩

/-! ## What a command is about -/

/-- The stream that a command opens or reads. -/
def Command.stream? : Command → Option String
  | openStream name _ _ _ | pull name _ | report name => some name
  | _ => none

/-- The parser that a command names. -/
def Command.parser? : Command → Option String
  | define name _ => some name
  | _ => none

/-- The command is about the stream. -/
def Command.isOn (name : String) (c : Command) : Bool := c.stream? == some name

/-! ## Sound sessions -/

/-- Nothing in the session refers to a handle that was never given out. -/
structure Sound (s : Session) : Prop where
  closed : s.rules.Closed
  parsers : s.parsers.RefersBelow s.rules.nextHandle
  streams : ∀ x ∈ s.streams, x.2.stream.RefersBelow s.rules.nextHandle

theorem sound_empty : empty.Sound := ⟨Rules.empty_all _, nofun, nofun⟩

variable {s s' t t' : Session} {fuel : Nat} {c : Command} {name : String}

theorem Sound.lookup_stream (hs : s.Sound) {o : OpenStream} (ho : s.streams.lookup name = some o) :
    o.stream.RefersBelow s.rules.nextHandle := by
  obtain ⟨before, after, heq, _⟩ := List.lookup_eq_some_iff.mp ho
  exact hs.streams (name, o) (by simp [heq])

/-- A session stays sound with a larger table, and with a stream of that table. -/
theorem Sound.keep (hs : s.Sound) {rules : Rules}
    (hrules : s.rules.Leads Parser.RefersBelow rules) {o : OpenStream}
    (ho : o.stream.RefersBelow rules.nextHandle) : ({ s with rules }.keep name o).Sound := by
  refine ⟨hrules.fits, hs.parsers.mono hrules.grows.nextHandle_le, fun x hx => ?_⟩
  rcases List.mem_cons.mp hx with rfl | hx
  · exact ho
  · exact (hs.streams x ((List.mem_filter.mp hx).1)).mono hrules.grows.nextHandle_le

/-- Leaving out what one name stands for changes nothing for another. -/
theorem lookup_filter_of_ne {other : String} (h : name ≠ other) (streams : List (String × OpenStream)) :
    (streams.filter (·.1 != name)).lookup other = streams.lookup other := by
  induction streams with
  | nil => rfl
  | cons x streams ih =>
    obtain ⟨first, o⟩ := x
    by_cases hname : first = name
    · subst hname
      have hother : (other == first) = false := by simpa using h.symm
      rw [List.filter_cons_of_neg (by simp), ih, List.lookup_cons, hother]
    · rw [List.filter_cons_of_pos (by simpa using hname), List.lookup_cons, List.lookup_cons, ih]

theorem lookup_keep_of_ne {other : String} (h : name ≠ other) (s : Session) (o : OpenStream) :
    (s.keep name o).streams.lookup other = s.streams.lookup other := by
  have hother : (other == name) = false := by simpa using h.symm
  rw [keep, List.lookup_cons, hother]
  exact lookup_filter_of_ne h s.streams

/-! ## What a command leaves alone -/

/-- The session after a command is sound, its table has grown, and it has the same parsers and
streams but for those that the command is about. -/
structure Spares (c : Command) (s s' : Session) : Prop where
  sound : s'.Sound
  grows : s.rules.Grows s'.rules
  parsers : ∀ name, c.parser? ≠ some name → s'.parsers.lookup name = s.parsers.lookup name
  streams : ∀ name, c.stream? ≠ some name → s'.streams.lookup name = s.streams.lookup name

theorem Spares.refl (hs : s.Sound) (c : Command) : Spares c s s :=
  ⟨hs, .refl _, fun _ _ => rfl, fun _ _ => rfl⟩

/-- A command that settles leaves the session as it was, or as its search says. -/
theorem settle_ensures {P : Session → Prop} {x : Search (Answer × Session)}
    (hx : x.Ensures fun y => P y.2) (hs : P s) {a : Action Answer} (h : s.settle x = some (a, s')) :
    P s' := by
  obtain ⟨⟨events, result⟩, rfl, h⟩ := Option.map_eq_some_iff.mp h
  rcases result with fault | ⟨answer, after⟩
  · cases h
    exact hs
  · cases h
    exact hx events (answer, _) rfl

theorem Sound.build (hs : s.Sound) (fuel : Nat) (g : Grammar) :
    (s.build fuel g).Ensures fun x =>
      s.rules.Leads Parser.RefersBelow x.2 ∧ x.1.RefersBelow x.2.nextHandle :=
  Grammar.build_builds fuel hs.closed hs.parsers g

/-- A command that only asks for something leaves the session as it was. -/
theorem Sound.spares_of_asking (hs : s.Sound) {g : Grammar} {f : Parser × Rules → Search (Answer × Session)}
    (hf : ∀ x, (f x).Ensures fun y => y.2 = s) {a : Action Answer}
    (h : s.settle (s.build fuel g >>= f) = some (a, s')) : Spares c s s' := by
  have hasks := (hs.build fuel g).bind fun x _ => hf x
  have hsame := settle_ensures (P := (· = s)) hasks rfl h
  rw [hsame]
  exact .refl hs c

/-- A command on a stream changes this stream alone. -/
theorem Sound.spares_of_onStream (hs : s.Sound) (hc : c.stream? = some name)
    {f : OpenStream → Option (Action Answer × Stream)}
    (hf : ∀ o x, o.stream.RefersBelow s.rules.nextHandle → f o = some x →
      x.2.RefersBelow s.rules.nextHandle)
    {a : Action Answer} (h : s.onStream name f = some (a, s')) : Spares c s s' := by
  rw [onStream] at h
  cases ho : s.streams.lookup name with
  | none =>
    rw [ho] at h
    cases h
    exact .refl hs c
  | some o =>
    rw [ho] at h
    obtain ⟨⟨answer, rest⟩, hx, h⟩ := Option.map_eq_some_iff.mp h
    cases h
    have hrest := hf o _ (hs.lookup_stream ho) hx
    refine ⟨hs.keep (.refl hs.closed) hrest, .refl _, fun _ _ => rfl, fun other hother => ?_⟩
    refine lookup_keep_of_ne ?_ s _
    rintro rfl
    exact hother hc

/-- One command. -/
theorem Sound.exec (hs : s.Sound) {a : Action Answer} (h : s.exec fuel c = some (a, s')) :
    Spares c s s' := by
  cases c with
  | define name g =>
    refine settle_ensures (P := Spares _ s) ?_ (.refl hs _) h
    refine (hs.build fuel g).bind fun ⟨p, rules⟩ ⟨hleads, hp⟩ => Search.ensures_pure ?_
    have hle := hleads.grows.nextHandle_le
    refine ⟨⟨hleads.fits, (hs.parsers.mono hle).cons hp, fun x hx => (hs.streams x hx).mono hle⟩,
      hleads.grows, fun other hother => ?_, fun _ _ => rfl⟩
    have hne : (other == name) = false := by
      refine beq_false_of_ne ?_
      rintro rfl
      exact hother rfl
    rw [List.lookup_cons, hne]
  | openStream name g text start =>
    refine settle_ensures (P := Spares _ s) ?_ (.refl hs _) h
    refine (hs.build fuel g).bind fun ⟨p, rules⟩ ⟨hleads, hp⟩ => ?_
    have hstart := Parser.start_grown text.toList hleads.fits (.refl rules) hp fuel start
    refine hstart.ensures.bind fun stream hstream => Search.ensures_pure ?_
    refine ⟨hs.keep hleads hstream, hleads.grows, fun _ _ => rfl, fun other hother => ?_⟩
    refine lookup_keep_of_ne ?_ { s with rules } _
    rintro rfl
    exact hother rfl
  | pull name limit =>
    refine hs.spares_of_onStream rfl (fun o x ho hx => ?_) h
    obtain ⟨r, hr, hx⟩ := Option.bind_eq_some_iff.mp hx
    cases hx
    exact (Stream.read_grown o.text hs.closed (.refl _) ho fuel _ _).2 r hr
  | report name =>
    refine hs.spares_of_onStream rfl (fun o x ho hx => ?_) h
    obtain ⟨⟨report, rest⟩, hr, hx⟩ := Option.bind_eq_some_iff.mp hx
    cases hx
    exact (Stream.report_grown o.text hs.closed (.refl _) ho fuel).2 _ hr
  | parse | parseToEnd | parseOrRaise | printReport =>
    refine hs.spares_of_asking (fun x => ?_) h
    exact (Search.sameAs_action _).ensures.bind fun _ _ => Search.ensures_pure rfl
  | step g text start limit =>
    refine hs.spares_of_asking (fun x => ?_) h
    refine (Search.sameAs_action _).ensures.bind fun _ _ => ?_
    exact (Search.sameAs_action _).ensures.bind fun _ _ => Search.ensures_pure rfl

/-- Commands lead from a sound session to sound sessions only. -/
theorem Sound.run (hs : s.Sound) {cs : List Command} {answers : List (Command × Action Answer)}
    (h : s.run fuel cs = some (answers, s')) : s'.Sound := by
  induction cs generalizing s answers with
  | nil =>
    cases h
    exact hs
  | cons c cs ih =>
    obtain ⟨a, next, later, hexec, hrest, rfl⟩ := run_cons h
    exact ih (hs.exec hexec).sound hrest

/-- Whatever is done in a session from its beginning, it is sound. -/
theorem sound_of_run {cs : List Command} {answers : List (Command × Action Answer)}
    (h : empty.run fuel cs = some (answers, s)) : s.Sound := sound_empty.run h

/-! ## Sessions alongside each other -/

/-- In the later session the table is larger, but the parsers of the names that are kept are
the same, and so is the stream. -/
structure Alongside (kept : String → Prop) (name : String) (t s : Session) : Prop where
  earlier : t.Sound
  later : s.Sound
  grows : t.rules.Grows s.rules
  parsers : ∀ parser, kept parser → s.parsers.lookup parser = t.parsers.lookup parser
  stream : s.streams.lookup name = t.streams.lookup name

namespace Alongside

variable {kept : String → Prop}

theorem refl (hs : s.Sound) : Alongside kept name s s := ⟨hs, hs, .refl _, fun _ _ => rfl, rfl⟩

/-- What is done in the later session to other streams goes unnoticed. -/
theorem elsewhere (h : Alongside kept name t s) {a : Action Answer}
    (hexec : s.exec fuel c = some (a, s')) (hc : c.stream? ≠ some name)
    (hkept : ∀ parser, kept parser → c.parser? ≠ some parser) : Alongside kept name t s' := by
  have hspares := h.later.exec hexec
  refine ⟨h.earlier, hspares.sound, h.grows.trans hspares.grows, fun parser hparser => ?_, ?_⟩
  · rw [hspares.parsers parser (hkept parser hparser), h.parsers parser hparser]
  · rw [hspares.streams name hc, h.stream]

/-- The stream is replaced in both sessions. -/
theorem keep (h : Alongside kept name t s) {o : OpenStream}
    (ho : o.stream.RefersBelow t.rules.nextHandle) :
    Alongside kept name (t.keep name o) (s.keep name o) where
  earlier := h.earlier.keep (.refl h.earlier.closed) ho
  later := h.later.keep (.refl h.later.closed) (ho.mono h.grows.nextHandle_le)
  grows := h.grows
  parsers := h.parsers
  stream := by rw [lookup_keep_self, lookup_keep_self]

/-- What is answered from the stream is the same, and so is the stream that is left. -/
theorem onStream (h : Alongside kept name t s)
    {f g : OpenStream → Option (Action Answer × Stream)}
    (hfg : ∀ o, o.stream.RefersBelow t.rules.nextHandle → g o = f o ∧
      ∀ x, f o = some x → x.2.RefersBelow t.rules.nextHandle) :
    Option.Rel (fun x y => x.1 = y.1 ∧ Alongside kept name x.2 y.2)
      (t.onStream name f) (s.onStream name g) := by
  unfold Session.onStream
  rw [h.stream]
  cases ho : t.streams.lookup name with
  | none => exact .some ⟨rfl, h⟩
  | some o =>
    obtain ⟨heq, hrest⟩ := hfg o (h.earlier.lookup_stream ho)
    simp only [heq]
    cases hf : f o with
    | none => exact .none
    | some x => exact .some ⟨rfl, h.keep (hrest x hf)⟩

end Alongside

/-! ## Uses of a stream -/

/-- What can be done with a stream: it is started anew from a parser that has a name, asked,
or reported on. -/
inductive Use where
  | start (parser text : String) (offset : Int)
  | pull (limit : Option Nat)
  | report

namespace Use

/-- The command to use the stream of a name. -/
def on (name : String) : Use → Command
  | start parser text offset => .openStream name (.ref parser) text offset
  | pull limit => .pull name limit
  | report => .report name

/-- The parser that a use starts. -/
def parser? : Use → Option String
  | start parser _ _ => some parser
  | _ => none

end Use

theorem build_ref {parser : String} {p : Parser} (hp : s.parsers.lookup parser = some p) (fuel : Nat) :
    s.build fuel (.ref parser) = pure (p, s.rules) := by
  rw [build, Grammar.build, hp]
  rfl

theorem exec_start_unknown {parser : String} (hp : s.parsers.lookup parser = none) (fuel : Nat)
    (name text : String) (offset : Int) :
    s.exec fuel (.openStream name (.ref parser) text offset) =
      some (Action.raise (.unknownName parser), s) := by
  rw [exec, build, Grammar.build, hp]
  rfl

/-- To start a stream is to call the parser of the name. -/
theorem exec_start {parser : String} {p : Parser} (hp : s.parsers.lookup parser = some p) (fuel : Nat)
    (name text : String) (offset : Int) :
    s.exec fuel (.openStream name (.ref parser) text offset) =
      (p.start s.rules text.toList fuel offset).map fun x =>
        match x.result with
        | .ok stream => (⟨x.events, .ok .accepted⟩, s.keep name ⟨text.toList, stream⟩)
        | .error fault => (⟨x.events, .error fault⟩, s) := by
  rw [exec, build_ref hp, Search.pure_bind]
  dsimp only
  rcases p.start s.rules text.toList fuel offset with _ | ⟨events, fault | stream⟩
  · rfl
  · rfl
  · let opened (stream : Stream) : Search (Answer × Session) :=
      pure (.accepted, s.keep name ⟨text.toList, stream⟩)
    exact congrArg s.settle (Search.bind_answer (x := some ⟨events, .ok stream⟩) (f := opened) rfl rfl)

namespace Alongside

variable {kept : String → Prop}

/-- What is done with the stream is answered in the same way in both sessions. -/
theorem use (h : Alongside kept name t s) (fuel : Nat) {u : Use}
    (hu : ∀ parser, u.parser? = some parser → kept parser) :
    Option.Rel (fun x y => x.1 = y.1 ∧ Alongside kept name x.2 y.2) (t.exec fuel (u.on name))
      (s.exec fuel (u.on name)) := by
  cases u with
  | pull limit =>
    refine h.onStream fun o ho => ?_
    obtain ⟨hread, hrest⟩ := Stream.read_grown o.text h.earlier.closed h.grows ho fuel
      (fun _ => false) (limit.getD fuel)
    unfold Stream.take
    rw [hread]
    refine ⟨rfl, fun x hx => ?_⟩
    obtain ⟨r, hr, hx⟩ := Option.bind_eq_some_iff.mp hx
    cases hx
    exact hrest r hr
  | report =>
    refine h.onStream fun o ho => ?_
    obtain ⟨hreport, hrest⟩ := Stream.report_grown o.text h.earlier.closed h.grows ho fuel
    rw [hreport]
    refine ⟨rfl, fun x hx => ?_⟩
    obtain ⟨⟨report, rest⟩, hr, hx⟩ := Option.bind_eq_some_iff.mp hx
    cases hx
    exact hrest _ hr
  | start parser text offset =>
    have hsame := h.parsers parser (hu parser rfl)
    cases hp : t.parsers.lookup parser with
    | none =>
      rw [hp] at hsame
      rw [Use.on, exec_start_unknown hp, exec_start_unknown hsame]
      exact .some ⟨rfl, h⟩
    | some p =>
      rw [hp] at hsame
      rw [Use.on, exec_start hp, exec_start hsame]
      have hbelow := h.earlier.parsers.lookup hp
      obtain ⟨heq, hstream⟩ :=
        Parser.start_grown text.toList h.earlier.closed h.grows hbelow fuel offset
      rw [← heq]
      rcases hstart : p.start t.rules text.toList fuel offset with _ | ⟨events, fault | stream⟩
      · exact .none
      · exact .some ⟨rfl, h⟩
      · exact .some ⟨rfl, h.keep (hstream events stream hstart)⟩

/-- However many things are done with the stream. -/
theorem run_uses (h : Alongside kept name t s) (fuel : Nat) {uses : List Use}
    (huses : ∀ u ∈ uses, ∀ parser, u.parser? = some parser → kept parser) :
    Option.Rel (fun x y => x.1 = y.1 ∧ Alongside kept name x.2 y.2)
      (t.run fuel (uses.map (·.on name))) (s.run fuel (uses.map (·.on name))) := by
  induction uses generalizing t s with
  | nil => exact .some ⟨rfl, h⟩
  | cons u uses ih =>
    have hone := h.use fuel (huses u List.mem_cons_self)
    simp only [List.map_cons, Session.run]
    generalize t.exec fuel (u.on name) = x at hone
    generalize s.exec fuel (u.on name) = y at hone
    cases hone with
    | none => exact .none
    | @some x y hxy =>
      obtain ⟨a, t⟩ := x
      obtain ⟨b, s⟩ := y
      obtain ⟨rfl, hafter⟩ := hxy
      have hlater := ih hafter fun u' hu' => huses u' (List.mem_cons_of_mem u hu')
      simp only [Option.bind_eq_bind, Option.bind_some]
      generalize t.run fuel _ = x at hlater
      generalize s.run fuel _ = y at hlater
      cases hlater with
      | none => exact .none
      | @some x y hxy => exact .some ⟨congrArg (_ :: ·) hxy.1, hxy.2⟩

/-- With all else that is done in the later session left out, the earlier one answers what is
done with the stream. -/
theorem run_filter (h : Alongside kept name t s) {cs : List Command}
    {answers : List (Command × Action Answer)} (hrun : s.run fuel cs = some (answers, s'))
    (hkept : ∀ c ∈ cs, ∀ parser, kept parser → c.parser? ≠ some parser)
    (huses : ∀ c ∈ cs, c.isOn name → ∃ u : Use, c = u.on name ∧
      ∀ parser, u.parser? = some parser → kept parser) :
    ∃ alone, t.run fuel (cs.filter (·.isOn name)) = some (answers.filter (·.1.isOn name), alone) ∧
      Alongside kept name alone s' := by
  induction cs generalizing t s answers with
  | nil =>
    cases hrun
    exact ⟨t, rfl, h⟩
  | cons c cs ih =>
    obtain ⟨a, next, later, hexec, hrest, rfl⟩ := run_cons hrun
    have hkept' := fun c' hc' => hkept c' (List.mem_cons_of_mem c hc')
    have huses' := fun c' hc' => huses c' (List.mem_cons_of_mem c hc')
    by_cases hc : c.isOn name
    · obtain ⟨u, rfl, hu⟩ := huses c List.mem_cons_self hc
      have hone := h.use fuel hu
      rcases hx : t.exec fuel (u.on name) with _ | ⟨a', t'⟩
      · rw [hx, hexec] at hone
        cases hone
      · rw [hx, hexec] at hone
        cases hone with
        | some hxy =>
          obtain ⟨rfl, hnext⟩ := hxy
          obtain ⟨alone, halone, hafter⟩ := ih hnext hrest hkept' huses'
          refine ⟨alone, ?_, hafter⟩
          have hlater : ((u.on name, a') :: later).filter (·.1.isOn name) =
              (u.on name, a') :: later.filter (·.1.isOn name) := List.filter_cons_of_pos hc
          rw [List.filter_cons_of_pos hc, hlater, Session.run, hx]
          simp only [Option.bind_eq_bind, Option.bind_some, halone]
          rfl
    · have hother : c.stream? ≠ some name := by simpa [Command.isOn] using hc
      have hnext := h.elsewhere hexec hother (hkept c List.mem_cons_self)
      obtain ⟨alone, halone, hafter⟩ := ih hnext hrest hkept' huses'
      refine ⟨alone, ?_, hafter⟩
      have hlater : ((c, a) :: later).filter (·.1.isOn name) = later.filter (·.1.isOn name) :=
        List.filter_cons_of_neg hc
      rw [List.filter_cons_of_neg hc, hlater]
      exact halone

end Alongside

/-! ## The law of sessions -/

/-- None of the commands gives the name of the parser to another one. -/
def Keeps (cs : List Command) (parser : String) : Prop := ∀ c ∈ cs, c.parser? ≠ some parser

/-- A command about a stream uses it, if it starts no other parsers than those kept. -/
theorem exists_use {kept : String → Prop} (hc : c.isOn name)
    (hopen : ∀ g text start, c = .openStream name g text start → ∃ parser, g = .ref parser ∧ kept parser) :
    ∃ u : Use, c = u.on name ∧ ∀ parser, u.parser? = some parser → kept parser := by
  cases c with
  | openStream other g text start =>
    obtain rfl : other = name := by simpa [Command.isOn, Command.stream?] using hc
    obtain ⟨parser, rfl, hkept⟩ := hopen g text start rfl
    refine ⟨.start parser text start, rfl, fun parser' hparser => ?_⟩
    cases hparser
    exact hkept
  | pull other limit =>
    obtain rfl : other = name := by simpa [Command.isOn, Command.stream?] using hc
    exact ⟨.pull limit, rfl, nofun⟩
  | report other =>
    obtain rfl : other = name := by simpa [Command.isOn, Command.stream?] using hc
    exact ⟨.report, rfl, nofun⟩
  | define | parse | parseToEnd | parseOrRaise | printReport | step => cases hc

/-- In any run of commands, what is answered about one stream and the stream that is left are
those of the run in which all other commands are left out, whatever these do to other
streams and however they end. The stream may be started anew on the way, from a parser that
keeps its name. And a stream that is started under a new name behind the run answers like
one that is started before it. -/
theorem streams_do_not_disturb_each_other (hs : s.Sound) {cs : List Command}
    {answers : List (Command × Action Answer)} (hrun : s.run fuel cs = some (answers, s')) (name : String)
    (hopen : ∀ g text start, .openStream name g text start ∈ cs →
      ∃ parser, g = .ref parser ∧ Keeps cs parser) :
    (∃ alone, s.run fuel (cs.filter (·.isOn name)) = some (answers.filter (·.1.isOn name), alone) ∧
      alone.streams.lookup name = s'.streams.lookup name) ∧
    ∀ (new : String) (uses : List Use), (∀ c ∈ cs, ¬ c.isOn new) →
      (∀ u ∈ uses, ∀ parser, u.parser? = some parser → Keeps cs parser) →
      (s.run fuel (uses.map (·.on new))).map Prod.fst =
        (s'.run fuel (uses.map (·.on new))).map Prod.fst := by
  have hkept : ∀ c ∈ cs, ∀ parser, Keeps cs parser → c.parser? ≠ some parser :=
    fun c hc parser hparser => hparser c hc
  refine ⟨?_, fun new uses hnew huses => ?_⟩
  · have huse : ∀ c ∈ cs, c.isOn name → ∃ u : Use, c = u.on name ∧
        ∀ parser, u.parser? = some parser → Keeps cs parser := by
      intro c hc hon
      refine exists_use hon fun g text start heq => ?_
      subst heq
      exact hopen g text start hc
    obtain ⟨alone, halone, hafter⟩ := (Alongside.refl hs).run_filter hrun hkept huse
    exact ⟨alone, halone, hafter.stream.symm⟩
  · -- Nothing was done with the new stream, so both sessions are as good as each other to it.
    have hsame : Alongside (Keeps cs) new s s := .refl hs
    obtain ⟨alone, halone, hafter⟩ :=
      hsame.run_filter hrun hkept fun c hc hon => (hnew c hc hon).elim
    rw [List.filter_eq_nil_iff.mpr hnew, run] at halone
    simp only [Option.some.injEq, Prod.mk.injEq] at halone
    obtain ⟨-, rfl⟩ := halone
    have huse := hafter.run_uses fuel huses
    generalize s.run fuel _ = x at huse ⊢
    generalize s'.run fuel _ = y at huse ⊢
    cases huse with
    | none => rfl
    | some hxy => exact congrArg some hxy.1

/-- A session with a parser of any number of letters. -/
def readers : Session where
  rules :=
    let letter : Probe := ⟨"letter", .lazily [.fitting 1 (.str "x")]⟩
    ⟨#[some (((Parser.custom letter.step).cons (.ref 0)).or (.succeed (.list [])))]⟩
  parsers := [("letters", .ref 0)]

theorem readers_sound : readers.Sound := by
  refine ⟨?_, ?_, nofun⟩
  · intro handle body hb
    match handle with
    | 0 =>
      cases hb
      exact ⟨trivial, ⟨trivial, trivial, trivial, Nat.zero_lt_one⟩, trivial⟩
    | n + 1 => simp [Rules.body?, readers] at hb
  · intro x hx
    obtain rfl := List.mem_singleton.mp hx
    exact Nat.zero_lt_one

/-- One stream is half read while others are started, fail and come to their end. -/
theorem letters_are_read_beside_a_failure :
    let first : List Command := [.openStream "a" (.ref "letters") "xy" 0, .pull "a" (some 1)]
    let between : List Command :=
      [.openStream "b" (.ref "letters") "xyz" 1, .pull "b" (some 1),
        .define "stuck" (.recursive "s" none (.unary .many (.leaf (.succeed .none)))),
        .openStream "c" (.ref "stuck") "" 0, .pull "c" none, .parse (.ref "letters") "z"]
    let last : List Command := [.pull "a" (some 1), .pull "b" none, .pull "a" none]
    let cs := first ++ between ++ last
    let mine : List (Command × Action Answer) :=
      [(.openStream "a" (.ref "letters") "xy" 0, ⟨[], .ok .accepted⟩),
        (.pull "a" (some 1), ⟨[.called "letter" 0, .pulled "letter" 1, .called "letter" 1,
          .pulled "letter" 1, .called "letter" 2],
          .ok (.outcomes [.success 2 (.list [.str "x", .str "x"])] .satisfied)⟩),
        (.pull "a" (some 1), ⟨[], .ok (.outcomes [.success 1 (.list [.str "x"])] .satisfied)⟩),
        (.pull "a" none, ⟨[], .ok (.outcomes [.success 0 (.list [])] .exhausted)⟩)]
    readers.Sound ∧
      (∀ g text start, .openStream "a" g text start ∈ cs →
        ∃ parser, g = .ref parser ∧ Keeps cs parser) ∧
      ∃ answers after, readers.run 30 cs = some (answers, after) ∧
        answers.filter (·.1.isOn "a") = mine ∧
        (readers.run 30 (cs.filter (·.isOn "a"))).map Prod.fst = some mine := by
  intro first between last cs mine
  have hkeeps : Keeps cs "letters" := by
    unfold Keeps
    decide
  have hopen : ∀ g text start, .openStream "a" g text start ∈ cs →
      ∃ parser, g = .ref parser ∧ Keeps cs parser := by
    intro g text start hmem
    refine ⟨"letters", ?_, hkeeps⟩
    simp only [cs, first, between, last, List.cons_append, List.nil_append, List.mem_cons] at hmem
    simp at hmem
    exact hmem.1
  have hmine : (readers.run 30 (cs.filter (·.isOn "a"))).map Prod.fst = some mine := rfl
  have hruns : (readers.run 30 cs).isSome := by
    simp only [cs, first, between, last]
    decide +kernel
  obtain ⟨⟨answers, after⟩, hrun⟩ := Option.isSome_iff_exists.mp hruns
  obtain ⟨⟨alone, halone, _⟩, _⟩ := streams_do_not_disturb_each_other readers_sound hrun "a" hopen
  have hfilter : answers.filter (·.1.isOn "a") = mine := by
    rw [halone] at hmine
    exact Option.some.inj hmine
  exact ⟨readers_sound, hopen, answers, after, hrun, hfilter, hmine⟩

end Session

end Backtrack
