-- How handles get their bodies: to define a grammar builds each recursive parser in it once and
-- starts nothing, and from then on every handle has a body. While a body is being built its
-- handle has none, but nothing that is built asks for it. So building follows the recursions of
-- the grammar as they are written down, up to the first one that is started before its time.
import Backtrack.Proofs.Blameless
import Backtrack.Proofs.Sessions

namespace Backtrack

/-! ## Recursions that are written down -/

namespace Grammar

mutual

/-- The recursive grammars in a grammar, outer ones before those in their bodies and those that
are built beforehand first: their names, and whether they are started early. -/
def recursions : Grammar → List (String × Bool)
  | leaf _ | regexp _ | ref _ | custom _ => []
  | unary _ g => g.recursions
  | binary _ g h => g.recursions ++ h.recursions
  | seq gs | choice gs => recursionsAll gs
  | recursive name early g => (name, early.isSome) :: g.recursions
  | given _ gs body => recursionsAll gs ++ body.recursions

/-- The recursive grammars in some grammars. -/
def recursionsAll : List Grammar → List (String × Bool)
  | [] => []
  | g :: gs => g.recursions ++ recursionsAll gs

end

mutual

/-- Every reference in the grammar has one of the names, or that of a recursive grammar around
it or of one that was built beforehand, and every pattern in it is one. -/
def WellFormed (names : List String) : Grammar → Prop
  | leaf _ | custom _ => True
  | regexp w => ∃ l, w.leaf = .ok l
  | unary _ g => g.WellFormed names
  | binary _ g h => g.WellFormed names ∧ h.WellFormed names
  | seq gs | choice gs => AllWellFormed names gs
  | recursive name _ g => g.WellFormed (name :: names)
  | ref name => name ∈ names
  | given inner gs body => inner.length = gs.length ∧ AllWellFormed names gs ∧
    body.WellFormed (inner ++ names)

/-- The grammars are well-formed. -/
def AllWellFormed (names : List String) : List Grammar → Prop
  | [] => True
  | g :: gs => g.WellFormed names ∧ AllWellFormed names gs

end

/-- The names of recursions up to the first one that is started early. -/
def announced : List (String × Bool) → List String
  | [] => []
  | (name, early) :: rest => name :: if early then [] else announced rest

variable {rs later : List (String × Bool)}

theorem announced_append (h : ∀ r ∈ rs, ¬ r.2) :
    announced (rs ++ later) = announced rs ++ announced later := by
  induction rs with
  | nil => rfl
  | cons r rs ih =>
    obtain ⟨hr, hrest⟩ := List.forall_mem_cons.mp h
    simp [announced, hr, ih hrest]

theorem announced_append_of_early (h : ∃ r ∈ rs, r.2) : announced (rs ++ later) = announced rs := by
  induction rs with
  | nil =>
    obtain ⟨r, hr, _⟩ := h
    cases hr
  | cons r rs ih =>
    by_cases hr : r.2
    · simp [announced, hr]
    · have hrest : ∃ r ∈ rs, r.2 := by simpa [hr] using h
      simp [announced, hr, ih hrest]

/-- What is recorded when all recursions of the grammar are built: each of them once. -/
def building (g : Grammar) : List Event := g.recursions.map fun r => .built r.1

theorem map_announced_of_calm (h : ∀ r ∈ rs, ¬ r.2) :
    (announced rs).map Event.built = rs.map fun r => .built r.1 := by
  induction rs with
  | nil => rfl
  | cons r rs ih =>
    obtain ⟨hr, hrest⟩ := List.forall_mem_cons.mp h
    simp [announced, hr, ih hrest]

/-- Grammars for names in their order. Each may use the names that are there already and
those of the grammars before it. -/
def InOrder (names : List String) : List (String × Grammar) → Prop
  | [] => True
  | d :: ds => d.2.WellFormed names ∧ InOrder (d.1 :: names) ds

end Grammar

/-! ## Tables that are filled -/

namespace Rules

variable {rules rules' rules'' : Rules} {m n : Nat}

/-- So many handles were given out, and all of them have bodies: a handle without one was
there before. -/
structure Furnishes (count : Nat) (rules rules' : Rules) : Prop where
  nextHandle_eq : rules'.nextHandle = rules.nextHandle + count
  missing : ∀ handle < rules'.nextHandle, rules'.body? handle = none →
    handle < rules.nextHandle ∧ rules.body? handle = none

theorem Furnishes.refl (rules : Rules) : Furnishes 0 rules rules :=
  ⟨rfl, fun _ hlt hnone => ⟨hlt, hnone⟩⟩

theorem Furnishes.trans (h : Furnishes m rules rules') (h' : Furnishes n rules' rules'') :
    Furnishes (m + n) rules rules'' := by
  refine ⟨?_, fun handle hlt hnone => ?_⟩
  · rw [h'.nextHandle_eq, h.nextHandle_eq, Nat.add_assoc]
  · obtain ⟨hlt', hnone'⟩ := h'.missing handle hlt hnone
    exact h.missing handle hlt' hnone'

/-- The body of a handle that was given out before its inner ones is written down. -/
theorem Furnishes.define (h : Furnishes n rules.reserve rules') (body : Parser) :
    Furnishes (n + 1) rules (rules'.define rules.nextHandle body) := by
  have hnext := h.nextHandle_eq
  rw [nextHandle_reserve] at hnext
  have hin : rules.nextHandle < rules'.nextHandle := by
    rw [hnext]
    exact Nat.lt_of_lt_of_le (Nat.lt_succ_self _) (Nat.le_add_right _ _)
  refine ⟨?_, fun handle hlt hnone => ?_⟩
  · rw [nextHandle_define, hnext, Nat.add_assoc, Nat.add_comm 1 n]
  · -- The handle has its body now, and nothing has changed about any other.
    by_cases hsame : rules.nextHandle = handle
    · subst hsame
      rw [body?_define_self hin] at hnone
      cases hnone
    · rw [body?_define_of_ne hsame] at hnone
      rw [nextHandle_define] at hlt
      obtain ⟨hlt', hnone'⟩ := h.missing handle hlt hnone
      rw [nextHandle_reserve] at hlt'
      rw [body?_reserve] at hnone'
      exact ⟨Nat.lt_of_le_of_ne (Nat.lt_succ_iff.mp hlt') (Ne.symm hsame), hnone'⟩

theorem Furnishes.complete (h : Furnishes n rules rules') (hrules : rules.Complete) : rules'.Complete := by
  intro handle hlt
  cases hbody : rules'.body? handle with
  | some body => exact ⟨body, rfl⟩
  | none =>
    obtain ⟨hlt', hnone⟩ := h.missing handle hlt hbody
    obtain ⟨body, hsome⟩ := hrules handle hlt'
    cases hnone.symm.trans hsome

end Rules

/-! ## How building goes -/

namespace Build

variable {α β : Type} {rules rules' : Rules} {events later : List Event}

/-- The step records these events and ends in this way. -/
def Gives (x : Build α) (rules : Rules) (events : List Event) (result : Except Fault (α × Rules)) : Prop :=
  x.run rules = some ⟨events, result⟩

theorem gives_pure (a : α) (rules : Rules) : Gives (pure a) rules [] (.ok (a, rules)) := rfl

theorem gives_reserve (rules : Rules) :
    Gives reserve rules [] (.ok (rules.nextHandle, rules.reserve)) := rfl

theorem gives_define (handle : Handle) (body : Parser) (rules : Rules) :
    Gives (define handle body) rules [] (.ok ((), rules.define handle body)) := rfl

theorem gives_emit (e : Event) (rules : Rules) :
    Gives (liftM (Action.emit e)) rules [e] (.ok ((), rules)) := rfl

theorem gives_get (rules : Rules) : Gives get rules [] (.ok (rules, rules)) := rfl

theorem Gives.bind {x : Build α} {f : α → Build β} {a : α} {result : Except Fault (β × Rules)}
    (hx : x.Gives rules events (.ok (a, rules'))) (hf : (f a).Gives rules' later result) :
    (x >>= f).Gives rules (events ++ later) result := by
  have hrun : (x >>= f).run rules = x.run rules >>= fun y => (f y.1).run y.2 := rfl
  rw [Gives, hrun]
  exact Search.bind_ok (f := fun y : α × Rules => (f y.1).run y.2) hx hf

theorem Gives.bind_error {x : Build α} {fault : Fault} (hx : x.Gives rules events (.error fault))
    (f : α → Build β) : (x >>= f).Gives rules events (.error fault) := Search.bind_error hx _

theorem Gives.discard_error {x : Build α} {fault : Fault} (hx : x.Gives rules events (.error fault)) :
    (discard x).Gives rules events (.error fault) :=
  Search.bind_error (f := fun y : α × Rules => pure ((), y.2)) hx

open Grammar (announced)

variable {P : α → Prop} {Q : β → Prop} {rs rs' : List (String × Bool)}

/-- The step builds the bodies of these recursions in their order, gives something as said,
and leaves no handle of theirs without a body. But if one of them is started early, it ends
there in a fault. -/
structure Follows (x : Nat → Build α) (rules : Rules) (rs : List (String × Bool)) (P : α → Prop) :
    Prop where
  builds : (∀ r ∈ rs, ¬ r.2) → ∃ a rules',
    (∀ fuel, (x fuel).Gives rules ((announced rs).map .built) (.ok (a, rules'))) ∧
      P a ∧ rules.Furnishes rs.length rules'
  stops : (∃ r ∈ rs, r.2) → ∀ fuel,
    (x (fuel + 1)).Gives rules ((announced rs).map .built) (.error .undefinedHandle)

theorem Follows.pure {a : α} (ha : P a) : Follows (fun _ => pure a) rules [] P :=
  ⟨fun _ => ⟨a, rules, fun _ => gives_pure a rules, ha, .refl rules⟩, fun ⟨_, hr, _⟩ => nomatch hr⟩

theorem Follows.bind {x : Nat → Build α} {f : α → Nat → Build β} (hx : Follows x rules rs P)
    (hf : ∀ a rules', P a → Follows (f a) rules' rs' Q) :
    Follows (fun fuel => x fuel >>= fun a => f a fuel) rules (rs ++ rs') Q := by
  refine ⟨fun hcalm => ?_, fun hearly fuel => ?_⟩
  · obtain ⟨hfirst, hsecond⟩ := List.forall_mem_append.mp hcalm
    obtain ⟨a, rules', hgives, ha, hfurnishes⟩ := hx.builds hfirst
    obtain ⟨b, rules'', hgives', hb, hfurnishes'⟩ := (hf a rules' ha).builds hsecond
    refine ⟨b, rules'', fun fuel => ?_, hb, ?_⟩
    · rw [Grammar.announced_append hfirst, List.map_append]
      exact (hgives fuel).bind (hgives' fuel)
    · rw [List.length_append]
      exact hfurnishes.trans hfurnishes'
  · by_cases hfirst : ∃ r ∈ rs, r.2
    · rw [Grammar.announced_append_of_early hfirst]
      exact (hx.stops hfirst fuel).bind_error _
    · -- The first step builds all that it has to, and the second one stops.
      have hcalm : ∀ r ∈ rs, ¬ r.2 := fun r hr h => hfirst ⟨r, hr, h⟩
      obtain ⟨a, rules', hgives, ha, _⟩ := hx.builds hcalm
      have hsecond : ∃ r ∈ rs', r.2 := by
        obtain ⟨r, hr, h⟩ := hearly
        rcases List.mem_append.mp hr with hr | hr
        · exact (hcalm r hr h).elim
        · exact ⟨r, hr, h⟩
      rw [Grammar.announced_append hcalm, List.map_append]
      exact (hgives (fuel + 1)).bind ((hf a rules' ha).stops hsecond fuel)

/-- What is made of what a step gives builds nothing more. -/
theorem Follows.map {x : Nat → Build α} {f : α → β} (hx : Follows x rules rs P)
    (hf : ∀ a, P a → Q (f a)) : Follows (fun fuel => x fuel >>= fun a => Pure.pure (f a)) rules rs Q := by
  have hboth := hx.bind (f := fun a _ => Pure.pure (f a)) fun a _ ha => Follows.pure (hf a ha)
  rwa [List.append_nil] at hboth

/-- A recursive parser is announced, and then its body is built and written down. -/
theorem Follows.recursive {name : String} {x : Handle → Nat → Build Parser}
    (hx : Follows (x rules.nextHandle) rules.reserve rs fun _ => True) :
    Follows (fun fuel => do
      let handle ← reserve
      Action.emit (.built name)
      let body ← x handle fuel
      define handle body
      return Parser.ref handle) rules ((name, false) :: rs) fun _ => True := by
  refine ⟨fun hcalm => ?_, fun hearly fuel => ?_⟩
  · obtain ⟨body, rules', hgives, _, hfurnishes⟩ := hx.builds (List.forall_mem_cons.mp hcalm).2
    refine ⟨.ref rules.nextHandle, rules'.define rules.nextHandle body, fun fuel => ?_, trivial,
      hfurnishes.define body⟩
    have hevents : (announced ((name, false) :: rs)).map Event.built =
        [] ++ ([.built name] ++ ((announced rs).map .built ++ ([] ++ []))) := by
      simp [announced]
    rw [hevents]
    refine (gives_reserve rules).bind ((gives_emit (.built name) rules.reserve).bind ?_)
    exact (hgives fuel).bind ((gives_define rules.nextHandle body rules').bind (gives_pure _ _))
  · have hinner : ∃ r ∈ rs, r.2 := by simpa using hearly
    have hstops := (hx.stops hinner fuel).bind_error fun body => do
      define rules.nextHandle body
      return Parser.ref rules.nextHandle
    exact (gives_reserve rules).bind ((gives_emit (.built name) rules.reserve).bind hstops)

end Build

/-! ## Handles without a body -/

/-- A handle that was just given out has no body, whatever was built since then. -/
theorem Rules.body?_nextHandle_eq_none {rules rules' : Rules} (h : rules.reserve.Grows rules') :
    rules'.body? rules.nextHandle = none := by
  rw [h.body?_eq _ rules.nextHandle_lt_reserve, body?_reserve]
  exact body?_eq_none (Nat.le_refl _)

/-- To start a handle that has no body is a fault at once. -/
theorem Parser.start_ref_undefined {rules : Rules} {handle : Handle}
    (h : rules.body? handle = none) (text : Text) (fuel : Nat) (i : Int) :
    (ref handle).start rules text (fuel + 1) i = some ⟨[], .error .undefinedHandle⟩ := by
  rw [start]
  simp only [h]
  rfl

/-- A recursive parser that is started early is announced, and nothing more is built. -/
theorem Build.Follows.recursive_early {rules : Rules} {name : String} {text : Text}
    {x : Handle → Nat → Build Parser} {rs : List (String × Bool)} {P : Parser → Prop} :
    Build.Follows (fun fuel => do
      let handle ← Build.reserve
      Action.emit (.built name)
      discard ((Parser.ref handle).start (← get) text fuel 0)
      let body ← x handle fuel
      Build.define handle body
      return .ref handle) rules ((name, true) :: rs) P := by
  refine ⟨fun hcalm => ?_, fun _ fuel => ?_⟩
  · exact ((List.forall_mem_cons.mp hcalm).1 rfl).elim
  · have hnone := Rules.body?_nextHandle_eq_none (Rules.Grows.refl rules.reserve)
    have hstart := Parser.start_ref_undefined hnone text fuel 0
    have hlift : Build.Gives (liftM ((Parser.ref rules.nextHandle).start rules.reserve text (fuel + 1) 0))
        rules.reserve [] (.error .undefinedHandle) := by
      rw [hstart]
      rfl
    refine (Build.gives_reserve rules).bind ((Build.gives_emit (.built name) rules.reserve).bind ?_)
    exact (Build.gives_get rules.reserve).bind (hlift.discard_error.bind_error _)

/-! ## How grammars are built -/

theorem Scope.exists_lookup {scope : Scope} {name : String} (h : name ∈ scope.map Prod.fst) :
    ∃ p, scope.lookup name = some p := by
  cases hp : scope.lookup name with
  | none =>
    obtain ⟨x, hx, rfl⟩ := List.mem_map.mp h
    exact absurd (List.lookup_eq_none_iff.mp hp x hx) (by simp)
  | some p => exact ⟨p, rfl⟩

/-- The names that the body may use where parsers are given. -/
theorem Scope.map_fst_given {names : List String} {ps : List Parser} (h : names.length = ps.length)
    (scope : Scope) :
    (names.zip ps ++ scope : Scope).map Prod.fst = names ++ scope.map Prod.fst := by
  rw [List.map_append, List.map_fst_zip (Nat.le_of_eq h)]

namespace Grammar

mutual

/-- Building a grammar follows its recursions. -/
theorem build_follows {scope : Scope} (rules : Rules) (g : Grammar)
    (hg : g.WellFormed (scope.map Prod.fst)) :
    Build.Follows (fun fuel => g.build fuel scope) rules g.recursions fun _ => True := by
  match g with
  | .leaf l =>
    simp only [build, recursions]
    exact .pure trivial
  | .regexp w =>
    obtain ⟨l, hl⟩ := hg
    simp only [build, recursions, hl]
    exact .pure (a := Parser.leaf l) trivial
  | .unary op g =>
    simp only [build, recursions]
    exact (build_follows rules g hg).map fun _ _ => trivial
  | .binary op g h =>
    simp only [build, recursions]
    refine (build_follows rules g hg.1).bind fun p rules' _ => ?_
    exact (build_follows rules' h hg.2).map fun _ _ => trivial
  | .seq gs | .choice gs =>
    simp only [build, recursions]
    exact (buildAll_follows rules gs hg).map fun _ _ => trivial
  | .recursive name early g =>
    simp only [build, recursions]
    cases early with
    | none =>
      have hbody : g.WellFormed (((name, Parser.ref rules.nextHandle) :: scope).map Prod.fst) := hg
      exact Build.Follows.recursive (x := fun handle fuel => g.build fuel ((name, .ref handle) :: scope))
        (build_follows rules.reserve g hbody)
    | some text => exact Build.Follows.recursive_early
  | .ref name =>
    obtain ⟨p, hlookup⟩ := Scope.exists_lookup hg
    simp only [build, recursions, hlookup]
    exact .pure trivial
  | .given names gs body =>
    simp only [build, recursions]
    refine (buildAll_follows rules gs hg.2.1).bind fun ps rules' hps => ?_
    refine build_follows rules' body ?_
    rw [Scope.map_fst_given (hg.1.trans hps.symm)]
    exact hg.2.2
  | .custom step =>
    simp only [build, recursions]
    exact .pure trivial

theorem buildAll_follows {scope : Scope} (rules : Rules) (gs : List Grammar)
    (hgs : AllWellFormed (scope.map Prod.fst) gs) :
    Build.Follows (fun fuel => buildAll fuel scope gs) rules (recursionsAll gs)
      fun ps => ps.length = gs.length := by
  match gs with
  | [] =>
    simp only [buildAll, recursionsAll]
    exact .pure rfl
  | g :: gs =>
    simp only [buildAll, recursionsAll]
    refine (build_follows rules g hgs.1).bind fun p rules' _ => ?_
    exact (buildAll_follows rules' gs hgs.2).map fun ps hps => congrArg (· + 1) hps

end

end Grammar

/-! ## Sessions of definitions -/

namespace Session

variable {s s' : Session} {g : Grammar} {events : List Event} {fuel : Nat}

theorem exec_define_of_gives (name : String) {p : Parser} {rules : Rules}
    (h : (g.build fuel s.parsers).Gives s.rules events (.ok (p, rules))) :
    s.exec fuel (.define name g) =
      some (⟨events, .ok .accepted⟩, { s with rules, parsers := (name, p) :: s.parsers }) := by
  have hbuild : s.build fuel g = some ⟨events, .ok (p, rules)⟩ := h
  let named (x : Parser × Rules) : Search (Answer × Session) :=
    pure (.accepted, { s with rules := x.2, parsers := (name, x.1) :: s.parsers })
  exact congrArg s.settle (Search.bind_answer (f := named) hbuild rfl)

theorem exec_define_of_error (name : String) {fault : Fault}
    (h : (g.build fuel s.parsers).Gives s.rules events (.error fault)) :
    s.exec fuel (.define name g) = some (⟨events, .error fault⟩, s) := by
  have hbuild : s.build fuel g = some ⟨events, .error fault⟩ := h
  exact congrArg s.settle (Search.bind_error hbuild _)

/-- All handles of the session have bodies. -/
structure Ready (s : Session) : Prop where
  sound : s.Sound
  complete : s.rules.Complete

theorem ready_empty : empty.Ready := ⟨sound_empty, fun _ h => absurd h (Nat.not_lt_zero _)⟩

/-- One definition leads from a ready session to a ready session, and builds each recursive
parser of the grammar once. -/
theorem Ready.define (hs : s.Ready) (hg : g.WellFormed (s.parsers.map Prod.fst))
    (hcalm : ∀ r ∈ g.recursions, ¬ r.2) (name : String) :
    ∃ s' : Session, (∀ fuel, s.exec fuel (.define name g) =
        some (⟨g.building, .ok .accepted⟩, s')) ∧
      s'.Ready ∧ s'.parsers.map Prod.fst = name :: s.parsers.map Prod.fst ∧
      s'.rules.nextHandle = s.rules.nextHandle + g.recursions.length := by
  obtain ⟨p, rules, hgives, _, hfurnishes⟩ := (g.build_follows s.rules hg).builds hcalm
  rw [Grammar.map_announced_of_calm hcalm] at hgives
  have hexec := fun fuel => exec_define_of_gives name (hgives fuel)
  have hready : Ready { s with rules, parsers := (name, p) :: s.parsers } :=
    ⟨(hs.sound.exec (hexec 0)).sound, hfurnishes.complete hs.complete⟩
  exact ⟨_, hexec, hready, rfl, hfurnishes.nextHandle_eq⟩

/-- A definition with an early start ends there, and leaves the session as it is. -/
theorem define_early (hg : g.WellFormed (s.parsers.map Prod.fst)) (hearly : ∃ r ∈ g.recursions, r.2)
    (name : String) (fuel : Nat) :
    s.exec (fuel + 1) (.define name g) = some
      (⟨(Grammar.announced g.recursions).map .built, .error .undefinedHandle⟩, s) :=
  exec_define_of_error name ((g.build_follows s.rules hg).stops hearly fuel)

/-! ## Definitions in their order -/

/-- The command that gives a grammar a name. -/
def Command.naming (d : String × Grammar) : Command := .define d.1 d.2

/-- What is answered to it if all that happens is that the recursions are built. -/
def Command.named (d : String × Grammar) : Command × Action Answer :=
  (naming d, ⟨d.2.building, .ok .accepted⟩)

/-- Any number of definitions lead from a ready session to a ready session. -/
theorem Ready.run (hs : s.Ready) {ds : List (String × Grammar)}
    (hds : Grammar.InOrder (s.parsers.map Prod.fst) ds)
    (hcalm : ∀ d ∈ ds, ∀ r ∈ d.2.recursions, ¬ r.2) :
    ∃ s' : Session, (∀ fuel, s.run fuel (ds.map Command.naming) = some (ds.map Command.named, s')) ∧
      s'.Ready ∧ s'.parsers.map Prod.fst = (ds.map Prod.fst).reverse ++ s.parsers.map Prod.fst ∧
      s'.rules.nextHandle = s.rules.nextHandle + (ds.flatMap fun d => d.2.recursions).length := by
  induction ds generalizing s with
  | nil => exact ⟨s, fun _ => rfl, hs, rfl, rfl⟩
  | cons d ds ih =>
    obtain ⟨hfirst, hrest⟩ := List.forall_mem_cons.mp hcalm
    obtain ⟨next, hexec, hnext, hnames, hhandles⟩ := hs.define hds.1 hfirst d.1
    have horder : Grammar.InOrder (next.parsers.map Prod.fst) ds := by
      rw [hnames]
      exact hds.2
    obtain ⟨s', hrun, hs', hnames', hhandles'⟩ := ih hnext horder hrest
    refine ⟨s', fun fuel => ?_, hs', ?_, ?_⟩
    · rw [List.map_cons, Session.run, Command.naming, hexec fuel]
      simp only [Option.bind_eq_bind, Option.bind_some, hrun fuel]
      rfl
    · rw [hnames', hnames]
      simp
    · rw [hhandles', hhandles, List.flatMap_cons, List.length_append, Nat.add_assoc]

/-! ## Parsers that fit -/

/-- All parsers and bodies of the session fit its table. -/
structure Fit (Fits : Handle → Parser → Prop) (s : Session) : Prop where
  bodies : s.rules.All (Fits s.rules.nextHandle)
  parsers : s.parsers.Fit Fits s.rules.nextHandle

theorem fit_empty (Fits : Handle → Parser → Prop) : empty.Fit Fits := ⟨Rules.empty_all _, nofun⟩

/-- What definitions build of parsers that fit, fits. -/
theorem Fit.run {OfUnary : UnaryOp → Prop} {OfBinary : BinaryOp → Prop}
    {OfStep : (Text → Int → Action Script) → Prop} {Fits : Handle → Parser → Prop}
    (law : Parser.Fitting OfUnary OfBinary OfStep Fits) (hs : s.Fit Fits) {ds : List (String × Grammar)}
    (hds : ∀ d ∈ ds, d.2.Uses OfUnary OfBinary OfStep) {answers : List (Command × Action Answer)}
    (hrun : s.run fuel (ds.map Command.naming) = some (answers, s')) : s'.Fit Fits := by
  induction ds generalizing s answers with
  | nil =>
    cases hrun
    exact hs
  | cons d ds ih =>
    obtain ⟨hd, hrest⟩ := List.forall_mem_cons.mp hds
    obtain ⟨answer, next, later, hexec, hrun, _⟩ := run_cons hrun
    refine ih (settle_ensures (P := Fit Fits) ?_ hs hexec) hrest hrun
    have hbuild := Grammar.build_fits law fuel hs.bodies hs.parsers d.2 hd
    refine Search.Ensures.bind hbuild fun ⟨p, rules⟩ ⟨hleads, hp⟩ => Search.ensures_pure ?_
    exact ⟨hleads.fits, (hs.parsers.grown law hleads.grows.nextHandle_le).cons hp⟩

end Session

end Backtrack
