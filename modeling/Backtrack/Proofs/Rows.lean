-- The laws of parsers in a row. Their list of values is built from the left, each value put
-- behind those before it, but it may as well be built from the right. Carried by the script
-- of a row, which is written down from the right, and by one law of it: a row cut anywhere is
-- its first part with its second part going on behind each success. A row built from the
-- left is cut before its last parser.
import Backtrack.Proofs.Guard
import Backtrack.Proofs.Sequence
import Mathlib.Data.List.Induction

namespace Backtrack

/-! ## Lists put one behind the other -/

/-- The second outcome is the first with one list of values instead of a pair of lists. -/
inductive Outcome.Concatenated : Outcome → Outcome → Prop where
  | success (index : Int) (vs ws : List Value) :
    Concatenated (.success index (.pair (.list vs) (.list ws))) (.success index (.list (vs ++ ws)))
  | failure (index : Int) (expect : String) :
    Concatenated (.failure index expect) (.failure index expect)

/-- Events and faults are the same, and outcomes but for their pairs of lists. -/
def Likeness.concatenated : Likeness where
  event e e' := e = e'
  outcome := Outcome.Concatenated
  fault f f' := f = f'

theorem Outcome.consOnto_behind (v : Value) (taken : List Value) (o : Outcome) :
    (o.behind taken).consOnto v = o.behind (v :: taken) := by
  cases o <;> rfl

namespace Parser

/-! ## The script of a row -/

/-- Parts one after another, with the list of their values. -/
def row : List (Int → Script) → Int → Script
  | [], i => .single (.success i (.list []))
  | part :: rest, i => (part i).expand (extended (row rest))

/-- What goes on behind an outcome gets its values in front. -/
def continued (further : Int → Script) : Outcome → Script
  | .failure index expect => .single (.failure index expect)
  | .success index taken =>
    (further index).expand fun o => .single (o.behind (taken.elements?.getD []))

variable {rules : Rules} {text : Text} {p q : Parser} {ps : List Parser} {i j : Int} {n : Nat}
  {v : Value} {fault : Fault} {parts later : List (Int → Script)}

/-- Every success of a row has a list for its value. -/
theorem list_of_mem_row (h : .success j v ∈ (row parts i).outcomes) : ∃ vs, v = .list vs := by
  cases parts with
  | nil =>
    cases List.mem_singleton.mp h
    exact ⟨[], rfl⟩
  | cons part rest =>
    obtain ⟨o, _, h⟩ := Script.mem_outcomes_expand h
    rw [outcomes_extended] at h
    cases o with
    | failure index expect => cases List.mem_singleton.mp h
    | success k w =>
      obtain ⟨o', _, heq⟩ := List.mem_map.mp h
      cases o' with
      | failure index expect => cases heq
      | success k' w' =>
        cases heq
        exact ⟨_, rfl⟩

/-- A row cut anywhere is its first part, with its second part going on behind. -/
theorem row_append : row (parts ++ later) i = (row parts i).expand (continued (row later)) := by
  induction parts generalizing i with
  | nil =>
    -- Nothing is put before the values of the second part.
    refine Eq.symm ((Script.single_expand _ _).trans ?_)
    refine Eq.trans (Script.expand_congr fun o ho => ?_) (Script.expand_outcome _)
    cases o with
    | failure index expect => rfl
    | success j v =>
      obtain ⟨vs, rfl⟩ := list_of_mem_row ho
      rfl
  | cons part rest ih =>
    rw [List.cons_append, row, row, Script.expand_expand]
    apply Script.expand_congr
    intro o _
    cases o with
    | failure index expect => rfl
    | success j v =>
      simp only [extended]
      rw [ih, Script.expand_expand, Script.expand_expand]
      apply Script.expand_congr
      intro o _
      cases o with
      | failure index expect => rfl
      | success k w =>
        have hright : (Script.single ((Outcome.success k w).consOnto v)).expand (continued (row later)) =
            (row later k).expand fun o =>
              .single (o.behind (v :: w.elements?.getD [])) := Script.single_expand _ _
        rw [hright, continued, Script.expand_expand]
        apply Script.expand_congr
        intro o _
        rw [← Outcome.consOnto_behind]
        exact Script.single_expand _ _

/-! ## Rows of parsers -/

/-- A parser behind one that gives lists is a row of its own behind it. -/
theorem script_snoc (hlists : ∀ j v, .success j v ∈ (p.script rules text n i).outcomes →
      ∃ vs, v = .list vs) :
    (p.snoc q).script rules text n i =
      (p.script rules text n i).expand (continued (row [q.script rules text n])) := by
  rw [snoc, map, script_mapOutcome, script_pair, Script.change, Script.pairWith_eq_expand,
    Script.expand_expand]
  apply Script.expand_congr
  intro o ho
  cases o with
  | failure index expect => rfl
  | success j v =>
    obtain ⟨vs, rfl⟩ := hlists j v ho
    rw [Script.goOn_success, continued, row, Script.expand_expand, Script.expand_expand]
    apply Script.expand_congr
    intro o _
    cases o <;> rfl

theorem script_foldr_cons : (ps.foldr cons (succeed (.list []))).script rules text n i =
    row (ps.map fun p => p.script rules text n) i := by
  induction ps generalizing i with
  | nil => exact script_leaf rules text n i _
  | cons p ps ih =>
    have hrest : (ps.foldr cons (succeed (.list []))).script rules text n =
        row (ps.map fun p => p.script rules text n) := funext fun _ => ih
    rw [List.foldr_cons, script_cons, hrest, List.map_cons, row]
    intro i j v hv
    rw [hrest] at hv
    exact list_of_mem_row hv

theorem seq_concat (ps : List Parser) (p : Parser) : seq (ps ++ [p]) = (seq ps).snoc p :=
  List.foldl_concat ..

theorem script_seq :
    (seq ps).script rules text n i = row (ps.map fun p => p.script rules text n) i := by
  induction ps using List.reverseRecOn generalizing i with
  | nil => exact script_leaf rules text n i _
  | append_singleton ps p ih =>
    rw [seq_concat, script_snoc, ih, List.map_append, row_append]
    · rfl
    · intro j v hv
      rw [ih] at hv
      exact list_of_mem_row hv

theorem waits_seq (ps : List Parser) : (seq ps).Waits := by
  induction ps using List.reverseRecOn with
  | nil => trivial
  | append_singleton ps p _ =>
    rw [seq_concat]
    trivial

theorem waits_foldr_cons (ps : List Parser) : (ps.foldr cons (succeed (.list []))).Waits := by
  cases ps <;> trivial

/-! ## Candidates in a row -/

/-- Each parser offers one candidate of the chain, the first at the offset and each other one
at the end of the one before it. -/
def Threaded (rules : Rules) (text : Text) : List Parser → Int → Chain → Prop
  | [], _, [] => True
  | p :: ps, i, c :: rest => p.Offers rules text i c ∧ Threaded rules text ps c.stop rest
  | [], _, _ :: _ | _ :: _, _, [] => False

theorem Threaded.length_eq {a : Chain} (h : Threaded rules text ps i a) : a.length = ps.length := by
  induction ps generalizing i a with
  | nil =>
    cases a with
    | nil => rfl
    | cons c a => exact h.elim
  | cons p ps ih =>
    cases a with
    | nil => exact h.elim
    | cons c a => exact congrArg (· + 1) (ih h.2)

/-- What a row gives stands for one candidate of each parser. -/
theorem exists_threaded_of_mem_row
    (h : .success j v ∈ (row (ps.map fun p => p.script rules text n) i).outcomes) :
    ∃ a, Threaded rules text ps i a ∧ .success j v = Chain.outcome i a := by
  induction ps generalizing i j v with
  | nil => exact ⟨[], trivial, List.mem_singleton.mp h⟩
  | cons p ps ih =>
    obtain ⟨place, o, ho, h, _⟩ := Script.exists_place_of_mem_outcomes_expand h
    rw [outcomes_extended] at h
    cases o with
    | failure index expect => cases List.mem_singleton.mp h
    | success k w =>
      obtain ⟨o', ho', heq⟩ := List.mem_map.mp h
      cases o' with
      | failure index expect => cases heq
      | success j' w' =>
        obtain ⟨a, hthreaded, houtcome⟩ := ih ho'
        rw [houtcome] at heq
        exact ⟨⟨place, k, w⟩ :: a, ⟨offers_iff_script.mpr ⟨n, ho⟩, hthreaded⟩, heq.symm⟩

/-- A fault of a row is one of a parser in it, at the end of candidates of those before. -/
theorem exists_threaded_of_endsIn_row
    (h : (row (ps.map fun p => p.script rules text n) i).EndsIn fault) :
    ∃ before p after a, ps = before ++ p :: after ∧ Threaded rules text before i a ∧
      p.Meets rules text (Chain.stop i a) fault := by
  induction ps generalizing i with
  | nil => exact h.elim
  | cons p ps ih =>
    rcases Script.endsIn_expand h with h | ⟨o, ho, h⟩
    · exact ⟨[], p, ps, [], rfl, trivial, meets_iff_endsIn.mpr ⟨n, h⟩⟩
    · cases o with
      | failure index expect => exact (Script.not_endsIn_single _ h).elim
      | success k w =>
        obtain ⟨before, q, after, a, rfl, hthreaded, hmeets⟩ := ih (Script.endsIn_expand_single.mp h)
        obtain ⟨place, hplace⟩ := List.mem_iff_getElem?.mp ho
        have hoffers : p.Offers rules text i ⟨place, k, w⟩ := offers_iff_script.mpr ⟨n, hplace⟩
        exact ⟨p :: before, q, after, ⟨place, k, w⟩ :: a, rfl, ⟨hoffers, hthreaded⟩, hmeets⟩

/-! ## The laws of rows -/

/-- What goes on behind a row gives lists that are put behind those of the row. -/
theorem alike_pairWith_row (i : Int) : Script.Alike .concatenated
    ((row parts i).pairWith (row later)) (row (parts ++ later) i) := by
  rw [row_append, Script.pairWith_eq_expand]
  apply Script.Alike.expand_same (fun e => rfl) (fun f => rfl)
  intro o ho
  cases o with
  | failure index expect => exact .single (.failure index expect)
  | success j v =>
    obtain ⟨vs, rfl⟩ := list_of_mem_row ho
    rw [Script.goOn_success, continued]
    apply Script.Alike.expand_same (fun e => rfl) (fun f => rfl)
    intro o ho
    cases o with
    | failure index expect => exact .single (.failure index expect)
    | success k w =>
      obtain ⟨ws, rfl⟩ := list_of_mem_row ho
      exact .single (.success k vs ws)

/-- Parsers in a row show the same whether their values are put behind each other from the
left or before each other from the right: for every number of pulls the same events in the
same order, the same outcomes, and the same end. Each value is a list with one value of each
parser, that of the candidate chosen of it. A row cut anywhere shows the same as its two
parts in sequence, but for its one list instead of their pair. And a row meets no fault of
its own, whatever the values of its parsers are: one of them meets the fault, behind
candidates of those before it. -/
theorem rows_are_folded_from_either_end (rules : Rules) (text : Text) (ps qs rs : List Parser) :
    Indistinguishable rules text (seq ps) (ps.foldr cons (succeed (.list []))) ∧
    (∀ i limit shown j v, (seq ps).Shows rules text i limit shown → .success j v ∈ shown.outcomes →
      ∃ a, Threaded rules text ps i a ∧ a.length = ps.length ∧ .success j v = Chain.outcome i a) ∧
    (∀ i limit,
      RunsAlike .concatenated rules text ((seq qs).pair (seq rs)) (seq (qs ++ rs)) i limit) ∧
    ∀ i fault, (seq ps).Meets rules text i fault →
      ∃ before p after a, ps = before ++ p :: after ∧ Threaded rules text before i a ∧
        p.Meets rules text (Chain.stop i a) fault := by
  refine ⟨?_, ?_, ?_, ?_⟩
  · apply indistinguishable_of_script_eq (waits_seq ps) (waits_foldr_cons ps)
    intro n i
    rw [script_seq, script_foldr_cons]
  · intro i limit shown j v hshows hv
    obtain ⟨n, hmem⟩ := hshows.mem_script hv
    rw [script_seq] at hmem
    obtain ⟨a, hthreaded, houtcome⟩ := exists_threaded_of_mem_row hmem
    exact ⟨a, hthreaded, hthreaded.length_eq, houtcome⟩
  · intro i limit
    have hboth : ((seq qs).pair (seq rs)).Waits := trivial
    apply runsAlike_of_alike hboth (waits_seq (qs ++ rs))
    intro n
    have hlater : (seq rs).script rules text n = row (rs.map fun p => p.script rules text n) :=
      funext fun j => script_seq
    rw [script_pair, script_seq, hlater, script_seq, List.map_append]
    exact alike_pairWith_row i
  · intro i fault hmeets
    obtain ⟨n, hends⟩ := meets_iff_endsIn.mp hmeets
    rw [script_seq] at hends
    exact exists_threaded_of_endsIn_row hends

/-- The values of a row whatever they are: nothing, a string and a pair. -/
example : ((seq [succeed .none, string "a", (string "b").pair endOfText]).script
    .empty ['a', 'b'] 0 0).outcomes =
      [.success 2 (.list [.none, .str "a", .pair (.str "b") .none])] := rfl

end Parser

end Backtrack
