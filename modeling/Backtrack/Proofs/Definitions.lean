-- The law of definitions: to define grammars runs nothing and leaves no handle without a body.
-- It is told twice, of the grammars and of the same grammars with all their repetitions written
-- as recursions, which are built and get handles and bodies like any other. The two sessions
-- are led on in tandem, so no run tells their parsers apart.
import Backtrack.Proofs.Tandem

namespace Backtrack

namespace Session

variable {s s' t t' : Session} {fuel : Nat}

/-! ## Sessions in tandem -/

/-- The tables of the sessions are in tandem, and the parsers of the second spell out those of
the first. -/
def InTandem (s t : Session) : Prop :=
  ∃ partners, Tandem partners s.rules t.rules ∧ Scope.Spelled partners t.rules s.parsers t.parsers

theorem inTandem_empty : InTandem empty empty := ⟨[], .empty, .nil⟩

/-- A definition that is accepted has built its parser. -/
theorem leaves_of_exec_define {name : String} {g : Grammar} {events : List Event} {answer : Answer}
    (h : s.exec fuel (.define name g) = some (⟨events, .ok answer⟩, s')) :
    ∃ p, (g.build fuel s.parsers).Leaves s.rules p s'.rules ∧ s'.parsers = (name, p) :: s.parsers := by
  obtain ⟨⟨built, result⟩, hx, h⟩ := Option.map_eq_some_iff.mp h
  rcases Search.of_bind hx with ⟨_, _, _, hfault⟩ | ⟨before, ⟨p, rules⟩, y, hbuild, hy, hresult⟩
  · cases hfault
    cases h
  · cases hy
    cases hresult
    cases h
    exact ⟨p, ⟨before, hbuild⟩, rfl⟩

theorem InTandem.define (h : InTandem s t) {name : String} {g : Grammar} {events events' : List Event}
    {answer answer' : Answer} (hs : s.exec fuel (.define name g) = some (⟨events, .ok answer⟩, s'))
    (ht : t.exec fuel (.define name g.spelled) = some (⟨events', .ok answer'⟩, t')) :
    InTandem s' t' := by
  obtain ⟨partners, htandem, hscope⟩ := h
  obtain ⟨p, hp, hparsers⟩ := leaves_of_exec_define hs
  obtain ⟨q, hq, hparsers'⟩ := leaves_of_exec_define ht
  obtain ⟨partners', honward, htandem', hspelled⟩ := g.build_in_tandem htandem hscope hp hq
  refine ⟨partners', htandem', ?_⟩
  rw [hparsers, hparsers']
  exact .cons ⟨rfl, hspelled⟩ (hscope.onward honward)

/-- The definitions with all repetitions written as recursions. -/
def spelled (ds : List (String × Grammar)) : List (String × Grammar) :=
  ds.map fun d => (d.1, d.2.spelled)

theorem inOrder_spelled {names : List String} {ds : List (String × Grammar)}
    (h : Grammar.InOrder names ds) : Grammar.InOrder names (spelled ds) := by
  induction ds generalizing names with
  | nil => trivial
  | cons d ds ih => exact ⟨Grammar.wellFormed_spelled d.2 h.1, ih h.2⟩

theorem InTandem.run (h : InTandem s t) {ds : List (String × Grammar)}
    (hs : s.run fuel (ds.map Command.naming) = some (ds.map Command.named, s'))
    (ht : t.run fuel ((spelled ds).map Command.naming) = some ((spelled ds).map Command.named, t')) :
    InTandem s' t' := by
  induction ds generalizing s t with
  | nil =>
    cases hs
    cases ht
    exact h
  | cons d ds ih =>
    obtain ⟨_, next, _, hexec, hrun, hanswers⟩ := run_cons hs
    obtain ⟨_, next', _, hexec', hrun', hanswers'⟩ := run_cons ht
    cases hanswers
    cases hanswers'
    exact ih (h.define hexec hexec') hrun hrun'

/-! ## The law of definitions -/

/-- What definitions of grammars come to. -/
structure Defines (ds : List (String × Grammar)) (s : Session) : Prop where
  /-- Whatever the fuel, even if there is none to start anything with, each definition is
  accepted, and all that it records is that the body of each recursion in the grammar is built,
  once and in order. -/
  runs : ∀ fuel, empty.run fuel (ds.map Command.naming) = some (ds.map Command.named, s)
  names : s.parsers.map Prod.fst = (ds.map Prod.fst).reverse
  /-- Each recursion has a handle. -/
  nextHandle_eq : s.rules.nextHandle = (ds.flatMap fun d => d.2.recursions).length
  /-- No run of a parser that has a name meets a handle that has no body. -/
  parsers : ∀ x ∈ s.parsers, ∀ text i, ¬ x.2.Meets s.rules text i .undefinedHandle
  /-- No run of a handle meets one that has no body. -/
  handles : ∀ handle < s.rules.nextHandle, ∀ text i,
    ¬ (Parser.ref handle).Meets s.rules text i .undefinedHandle
  /-- A grammar that starts a recursion before its time has a fault there at once: nothing more
  is built, and nothing is defined. -/
  early : ∀ name g, g.WellFormed (s.parsers.map Prod.fst) → (∃ r ∈ g.recursions, r.2) → ∀ fuel,
    s.exec (fuel + 1) (.define name g) = some
      (⟨(Grammar.announced g.recursions).map .built, .error .undefinedHandle⟩, s)
  /-- What is built only adds to the table: a handle that is still to get its body has none. -/
  grows : ∀ fuel (scope : Scope) rules (g : Grammar) p rules',
    (g.build fuel scope).Leaves rules p rules' → rules.Grows rules'
  /-- So whoever starts it then has that fault at the call, whatever had been built when the
  handle was given out and whatever has been built since then. -/
  pending : ∀ before rules : Rules, before.reserve.Grows rules → ∀ text fuel i,
    (Parser.ref before.nextHandle).start rules text (fuel + 1) i = some ⟨[], .error .undefinedHandle⟩

theorem defines {ds : List (String × Grammar)} (hds : Grammar.InOrder [] ds)
    (hcalm : ∀ d ∈ ds, ∀ r ∈ d.2.recursions, ¬ r.2) (hblameless : ∀ d ∈ ds, d.2.Blameless) :
    ∃ s, Defines ds s := by
  obtain ⟨s, hrun, hs, hnames, hhandles⟩ := ready_empty.run hds hcalm
  have hfit := (fit_empty _).run Parser.fitting_blameless hblameless (hrun 0)
  have hsafe {p : Parser} (hrefs : p.RefersBelow s.rules.nextHandle) (hp : p.Blameless) :=
    hs.complete.not_meets_undefinedHandle hs.sound.closed hfit.bodies hrefs hp
  refine ⟨s, hrun, hnames.trans (List.append_nil _), hhandles.trans (Nat.zero_add _), ?_, ?_, ?_, ?_, ?_⟩
  · exact fun x hx => hsafe (hs.sound.parsers x hx) (hfit.parsers x hx)
  · exact fun handle hlt => hsafe hlt trivial
  · exact fun name g hg hearly => define_early hg hearly name
  · exact fun fuel scope rules g p rules' h => h.of_ensures (g.build_grows fuel scope rules)
  · exact fun before rules h => Parser.start_ref_undefined (Rules.body?_nextHandle_eq_none h)

/-- The definitions with all repetitions written as recursions are definitions of the same kind. -/
theorem defines_spelled {ds : List (String × Grammar)} (hds : Grammar.InOrder [] ds)
    (hcalm : ∀ d ∈ ds, ∀ r ∈ d.2.recursions, ¬ r.2) (hblameless : ∀ d ∈ ds, d.2.Blameless) :
    ∃ t, Defines (spelled ds) t := by
  refine defines (inOrder_spelled hds) (fun _ h => ?_) fun _ h => ?_
  · obtain ⟨d, hd, rfl⟩ := List.mem_map.mp h
    exact Grammar.calm_spelled d.2 (hcalm d hd)
  · obtain ⟨d, hd, rfl⟩ := List.mem_map.mp h
    exact Grammar.blameless_spelled (hblameless d hd)

/-- Definitions of grammars run nothing and leave no handle without a body, however recursions
lie in each other and refer to outer ones, as long as none is started early and nothing of the
user's ends in that fault by itself. All repetitions are recursions as well: written as such,
they are built once and in order too, and their handles get bodies like all others. In that
session nothing repeats but by recursion, and from every start, for every number of pulls, its
parsers show the same as those of the other one. -/
theorem definitions_run_nothing {ds : List (String × Grammar)} (hds : Grammar.InOrder [] ds)
    (hcalm : ∀ d ∈ ds, ∀ r ∈ d.2.recursions, ¬ r.2) (hblameless : ∀ d ∈ ds, d.2.Blameless) :
    ∃ s t : Session, Defines ds s ∧ Defines (spelled ds) t ∧
      t.Fit (fun _ p => p.Unrepeated) ∧
      List.Forall₂ (fun x y => x.1 = y.1 ∧ ∀ text i limit shown,
        x.2.Shows s.rules text i limit shown ↔ y.2.Shows t.rules text i limit shown)
        s.parsers t.parsers := by
  obtain ⟨s, hs⟩ := defines hds hcalm hblameless
  obtain ⟨t, ht⟩ := defines_spelled hds hcalm hblameless
  obtain ⟨partners, htandem, hscope⟩ := inTandem_empty.run (hs.runs 0) (ht.runs 0)
  refine ⟨s, t, hs, ht, ?_, hscope.imp fun x y hx => ⟨hx.1, hx.2.shows_iff htandem.bodies⟩⟩
  refine (fit_empty _).run Parser.fitting_unrepeated (fun d hd => ?_) (ht.runs 0)
  obtain ⟨d, _, rfl⟩ := List.mem_map.mp hd
  exact d.2.unrepeated_spelled

/-- Lists in parentheses: the inner recursion refers to the outer one from below repetitions,
and one recursion is used by nobody. Pairs are made by a function and a step of the user's, and
what they are separated by is built once for two uses. A further grammar starts a recursion
early. -/
theorem lists_run_nothing :
    let item : Grammar := .recursive "item" none
      (.binary .or (.leaf (.string "x")) (.binary .keepSecond (.leaf (.string "(")) (.ref "list")))
    let list : Grammar := .recursive "list" none
      (.binary .keepFirst (.unary .many item)
        (.binary .or (.leaf (.string ")")) (.recursive "idle" none (.ref "idle"))))
    let next : Grammar := .custom fun _ i => pure (.single (.success (i + 1) (.str "next")))
    let pairs : Grammar := .given ["comma"] [.leaf (.string ",")]
      (.binary .sepBy (.unary (.map fun v => pure (.tuple [v, v])) (.binary .pair next (.ref "comma")))
        (.ref "comma"))
    let ds : List (String × Grammar) :=
      [("list", list), ("lists", .unary .many1 (.ref "list")), ("pairs", pairs)]
    let hasty : Grammar := .binary .or (.recursive "first" none (.ref "lists"))
      (.recursive "hasty" (some "x") (.recursive "never" none (.ref "hasty")))
    Grammar.InOrder [] ds ∧ (∀ d ∈ ds, ∀ r ∈ d.2.recursions, ¬ r.2) ∧ (∀ d ∈ ds, d.2.Blameless) ∧
      ∃ s t : Session,
        empty.run 0 (ds.map Command.naming) = some
          ([(.define "list" list, ⟨[.built "list", .built "item", .built "idle"], .ok .accepted⟩),
            (.define "lists" (.unary .many1 (.ref "list")), ⟨[], .ok .accepted⟩),
            (.define "pairs" pairs, ⟨[], .ok .accepted⟩)], s) ∧
        empty.run 0 ((spelled ds).map Command.naming) = some
          ([(.define "list" list.spelled,
              ⟨[.built "list", .built "item", .built "rest", .built "idle"], .ok .accepted⟩),
            (.define "lists" (.repetition1 (.ref "list")), ⟨[.built "rest"], .ok .accepted⟩),
            (.define "pairs" pairs.spelled, ⟨[.built "rest"], .ok .accepted⟩)], t) ∧
        (∀ handle < 6, ∀ text i, ¬ (Parser.ref handle).Meets t.rules text i .undefinedHandle) ∧
        s.exec 1 (.define "hasty" hasty) =
          some (⟨[.built "first", .built "hasty"], .error .undefinedHandle⟩, s) ∧
        List.Forall₂ (fun x y => x.1 = y.1 ∧ ∀ text i limit shown,
          x.2.Shows s.rules text i limit shown ↔ y.2.Shows t.rules text i limit shown)
          s.parsers t.parsers := by
  intro item list next pairs ds hasty
  have hds : Grammar.InOrder [] ds := by
    simp [ds, list, item, pairs, next, Grammar.InOrder, Grammar.WellFormed, Grammar.AllWellFormed]
  have hcalm : ∀ d ∈ ds, ∀ r ∈ d.2.recursions, ¬ r.2 := by
    simp [ds, list, item, pairs, next, Grammar.recursions, Grammar.recursionsAll]
  have hnext : next.Blameless := fun _ _ => Script.not_endsIn_single _
  have hpair : UnaryOp.Blameless (.map fun v => pure (.tuple [v, v])) := fun v => .pure _
  have hlist : list.Blameless :=
    ⟨trivial, ⟨trivial, trivial, trivial, trivial, trivial, trivial⟩, trivial, trivial, trivial⟩
  have hpairs : pairs.Blameless :=
    ⟨⟨trivial, trivial⟩, trivial, ⟨hpair, trivial, hnext, trivial⟩, trivial⟩
  have hblameless : ∀ d ∈ ds, d.2.Blameless :=
    List.forall_mem_cons.mpr ⟨hlist, List.forall_mem_cons.mpr
      ⟨⟨trivial, trivial⟩, List.forall_mem_singleton.mpr hpairs⟩⟩
  obtain ⟨s, t, hs, ht, _, hsame⟩ := definitions_run_nothing hds hcalm hblameless
  have hsix : t.rules.nextHandle = 6 := ht.nextHandle_eq
  have hwellformed : hasty.WellFormed (s.parsers.map Prod.fst) := by
    rw [hs.names]
    simp [hasty, ds, Grammar.WellFormed]
  have hhasty : ("hasty", true) ∈ hasty.recursions := by simp [hasty, Grammar.recursions]
  refine ⟨hds, hcalm, hblameless, s, t, hs.runs 0, ht.runs 0, fun handle hlt => ?_, ?_, hsame⟩
  · exact ht.handles handle (hsix.symm ▸ hlt)
  · exact hs.early "hasty" hasty hwellformed ⟨_, hhasty, rfl⟩ 0

end Session

end Backtrack
