-- The laws of sequences: how three parsers in a row are nested changes nothing but the
-- way their values are paired, and a parser that succeeds and takes nothing can be left
-- out. A sequence replaces outcomes by whole scripts, and replacing twice is replacing
-- once by what was replaced, so both nestings are one replacement in the script of the
-- first parser.
import Backtrack.Proofs.Stream.Comparing

namespace Backtrack

/-! ## Outcomes with other values -/

/-- The outcome with another value if it is a success. -/
def Outcome.withValue (value : Value) : Outcome → Outcome
  | success index _ => success index value
  | failure index expect => failure index expect

/-- The second outcome is the first with a value of three bracketed to the right instead
of to the left. -/
inductive Outcome.Rebracketed : Outcome → Outcome → Prop where
  | success (index : Int) (a b c : Value) :
    Rebracketed (.success index (.pair (.pair a b) c)) (.success index (.pair a (.pair b c)))
  | failure (index : Int) (expect : String) :
    Rebracketed (.failure index expect) (.failure index expect)

/-- Events and faults are the same, and outcomes up to the way they are bracketed. -/
def Likeness.rebracketed : Likeness where
  event e e' := e = e'
  outcome := Outcome.Rebracketed
  fault f f' := f = f'

namespace Script

/-- What a sequence puts in place of an outcome of its first part. -/
def goOn (second : Int → Script) : Outcome → Script
  | .failure index expect => single (.failure index expect)
  | .success index value => (second index).expand fun o => single (o.pairedWith value)

theorem goOn_success (second : Int → Script) (index : Int) (value : Value) :
    goOn second (.success index value) =
      (second index).expand fun o => single (o.pairedWith value) := rfl

theorem pairWith_eq_expand (s : Script) (second : Int → Script) :
    s.pairWith second = s.expand (goOn second) := rfl

/-- A third part goes on behind the second in the same way, whichever of the two it is
paired with. -/
theorem alike_goOn (q r : Int → Script) (o : Outcome) :
    Alike .rebracketed ((goOn q o).expand (goOn r)) (goOn (fun j => (q j).pairWith r) o) := by
  cases o with
  | failure index expect => exact .single (.failure index expect)
  | success i a =>
    rw [goOn_success, goOn_success, expand_expand, pairWith_eq_expand, expand_expand]
    apply Alike.expand_same (fun e => rfl) (fun f => rfl)
    intro o _
    cases o with
    | failure index expect => exact .single (.failure index expect)
    | success j b =>
      -- A single outcome that goes on with the third part is that part paired with it.
      have hleft : (single ((Outcome.success j b).pairedWith a)).expand (goOn r) =
          (r j).expand fun o => single (o.pairedWith (.pair a b)) := single_expand _ _
      rw [hleft, goOn_success, expand_expand]
      apply Alike.expand_same (fun e => rfl) (fun f => rfl)
      intro o _
      cases o with
      | failure index expect => exact .single (.failure index expect)
      | success k c => exact .single (.success k a b c)

theorem alike_pairWith (s : Script) (q r : Int → Script) :
    Alike .rebracketed ((s.pairWith q).pairWith r) (s.pairWith fun j => (q j).pairWith r) := by
  rw [pairWith_eq_expand _ r, pairWith_eq_expand s q, expand_expand, pairWith_eq_expand]
  exact Alike.expand_same (fun e => rfl) (fun f => rfl) fun o _ => alike_goOn q r o

end Script

namespace Parser

variable (rules : Rules) (text : Text) (n : Nat) (i : Int) (p q : Parser)

/-! ## Sequences of which one value is kept -/

/-- What becomes of one outcome of a function of values that always answers. -/
theorem change_onValue (s : Script) (f : Value → Value) :
    s.change (onValue (fun v => pure (f v)) · i) = s.expand fun
      | .success index value => .single (.success index (f value))
      | .failure index expect => .single (.failure index expect) := by
  unfold Script.change
  congr 1
  funext o
  cases o <;> rfl

/-- What stands in place of an outcome of which only the end is handed on. -/
def fromEnd (second : Int → Script) : Outcome → Script
  | .failure index expect => .single (.failure index expect)
  | .success index _ => second index

/-- What stands in place of an outcome of which the value is kept. -/
def keepingValue (second : Int → Script) : Outcome → Script
  | .failure index expect => .single (.failure index expect)
  | .success index value => (second index).expand fun o => .single (o.withValue value)

theorem script_keepSecond : (p.keepSecond q).script rules text n i =
    (p.script rules text n i).expand (fromEnd (q.script rules text n)) := by
  rw [keepSecond, map, script_mapOutcome, script_pair, change_onValue, Script.pairWith_eq_expand,
    Script.expand_expand]
  congr 1
  funext o
  cases o with
  | failure index expect => rfl
  | success index value =>
    rw [Script.goOn_success, Script.expand_expand]
    refine Eq.trans ?_ (Script.expand_outcome _)
    congr 1
    funext o
    cases o <;> rfl

theorem script_keepFirst : (p.keepFirst q).script rules text n i =
    (p.script rules text n i).expand (keepingValue (q.script rules text n)) := by
  rw [keepFirst, map, script_mapOutcome, script_pair, change_onValue, Script.pairWith_eq_expand,
    Script.expand_expand]
  congr 1
  funext o
  cases o with
  | failure index expect => rfl
  | success index value =>
    rw [Script.goOn_success, Script.expand_expand, keepingValue]
    congr 1
    funext o
    cases o <;> rfl

/-! ## Parts that take nothing -/

theorem script_succeed_keepSecond (v : Value) :
    ((succeed v).keepSecond p).script rules text n i = p.script rules text n i := by
  rw [script_keepSecond, succeed, script_leaf]
  exact Script.single_expand _ _

theorem script_keepFirst_succeed (v : Value) :
    (p.keepFirst (succeed v)).script rules text n i = p.script rules text n i := by
  rw [script_keepFirst]
  refine Eq.trans ?_ (Script.expand_outcome _)
  congr 1
  funext o
  cases o with
  | failure index expect => rfl
  | success index value =>
    rw [keepingValue, succeed, script_leaf]
    rfl

theorem script_fail_pair (expect : String) :
    ((fail expect).pair p).script rules text n i = (fail expect).script rules text n i := by
  rw [script_pair, fail, script_leaf]
  rfl

/-! ## The laws of sequences -/

/-- Three parsers in a row show the same however they are nested: for every number of
pulls the same events in the same order, the same outcomes but for the brackets of their
values, and the same end. A parser that succeeds and takes nothing, before or behind
another one whose values are kept, only puts its step call off to the first pull, and
what stands behind a failure is never run. -/
theorem sequences_are_associative_with_units (r : Parser) (v : Value) (expect : String) :
    (∀ i limit, RunsAlike .rebracketed rules text ((p.pair q).pair r) (p.pair (q.pair r)) i limit) ∧
    PutOff rules text p ((succeed v).keepSecond p) ∧
    PutOff rules text p (p.keepFirst (succeed v)) ∧
    Indistinguishable rules text ((fail expect).pair p) (fail expect) := by
  refine ⟨fun i limit => ?_, ?_, ?_, ?_⟩
  · have hleft : ((p.pair q).pair r).Waits := trivial
    have hright : (p.pair (q.pair r)).Waits := trivial
    apply runsAlike_of_alike hleft hright
    intro n
    have hsecond : (q.pair r).script rules text n =
        fun j => (q.script rules text n j).pairWith (r.script rules text n) :=
      funext fun j => script_pair rules text n j q r
    rw [script_pair, script_pair, script_pair, hsecond]
    exact Script.alike_pairWith _ _ _
  · exact putOff_of_script_eq trivial fun n i => script_succeed_keepSecond rules text n i p v
  · exact putOff_of_script_eq trivial fun n i => script_keepFirst_succeed rules text n i p v
  · exact indistinguishable_of_script_eq trivial trivial fun n i =>
      script_fail_pair rules text n i p expect

end Parser

end Backtrack
