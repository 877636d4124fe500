-- The parts of parsers: what is said of every part of a parser, and of every
-- body in the table, is said in one place. Only references look into the table.
import Backtrack.Proofs.Script.Reading

namespace Backtrack

namespace Parser

/-- Each part of the parser is as said, and so is the parser itself. -/
def Everywhere (P : Parser → Prop) : Parser → Prop
  | leaf l => P (leaf l)
  | custom step => P (custom step)
  | pair p q => P (pair p q) ∧ p.Everywhere P ∧ q.Everywhere P
  | or p q => P (or p q) ∧ p.Everywhere P ∧ q.Everywhere P
  | mapOutcome change p => P (mapOutcome change p) ∧ p.Everywhere P
  | not p => P (not p) ∧ p.Everywhere P
  | many p => P (many p) ∧ p.Everywhere P
  | ref handle => P (ref handle)

theorem Everywhere.imp {P Q : Parser → Prop} (hPQ : ∀ p, P p → Q p) {p : Parser}
    (h : p.Everywhere P) : p.Everywhere Q := by
  induction p with
  | leaf | custom | ref => exact hPQ _ h
  | pair p q ihp ihq | or p q ihp ihq => exact ⟨hPQ _ h.1, ihp h.2.1, ihq h.2.2⟩
  | mapOutcome change p ih => exact ⟨hPQ _ h.1, ih h.2⟩
  | not p ih | many p ih => exact ⟨hPQ _ h.1, ih h.2⟩

/-- The parser refers to no recursive parser. -/
def WithoutRefs : Parser → Prop :=
  Everywhere fun
    | ref _ => False
    | _ => True

theorem scriptWith_of_withoutRefs {p : Parser} (hp : p.WithoutRefs) (text : Text) (n : Nat)
    (recursive recursive' : Handle → Int → Script) (i : Int) :
    p.scriptWith text n recursive i = p.scriptWith text n recursive' i := by
  induction p generalizing i with
  | leaf | custom => rfl
  | pair p q ihp ihq =>
    have hq : q.scriptWith text n recursive = q.scriptWith text n recursive' :=
      funext (ihq hp.2.2)
    simp only [scriptWith, ihp hp.2.1, hq]
  | or p q ihp ihq => simp only [scriptWith, ihp hp.2.1, ihq hp.2.2]
  | mapOutcome change p ih => simp only [scriptWith, ih hp.2]
  | not p ih => simp only [scriptWith, ih hp.2]
  | many p ih =>
    have hbody : p.scriptWith text n recursive = p.scriptWith text n recursive' :=
      funext (ih hp.2)
    simp only [scriptWith, hbody]
  | ref handle => exact hp.elim

/-- A parser without references has the same script with any table. -/
theorem script_of_withoutRefs {p : Parser} (hp : p.WithoutRefs) (rules rules' : Rules)
    (text : Text) (n : Nat) (i : Int) :
    p.script rules text n i = p.script rules' text n i := by
  cases n with
  | zero => rfl
  | succ n => exact scriptWith_of_withoutRefs hp text (n + 1) _ _ i

end Parser

namespace Rules

/-- Every body in the table is as said. -/
def All (rules : Rules) (P : Parser → Prop) : Prop :=
  ∀ handle body, rules.body? handle = some body → P body

theorem empty_all (P : Parser → Prop) : empty.All P := by
  intro handle body h
  simp [body?, empty] at h

theorem body?_eq_none {rules : Rules} {handle : Handle} (h : rules.nextHandle ≤ handle) :
    rules.body? handle = none := by
  simp only [nextHandle] at h
  simp [body?, h]

end Rules

end Backtrack
