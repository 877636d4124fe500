-- Derivations: what a parser may take from a text, said by rules and without any
-- order in which choices are tried. Two derivations are the same only if they were
-- made with the same rules at the same offsets.
import Backtrack.Proofs.Parts
import Mathlib.Logic.Function.Basic

namespace Backtrack

/-! ## The rules -/

/-- The leaf takes what stands between the two offsets and produces the value. -/
def Leaf.Takes (text : Text) (start stop : Int) (value : Value) : Leaf → Prop
  | string literal =>
    text.holds literal.toList start ∧ stop = start + literal.length ∧ value = .str literal
  | regexp pattern group => ∃ found, pattern.find group (text.remainder start) = .taken found ∧
    stop = start + found.length ∧ value = .str (String.ofList found)
  | endOfText => start = text.length ∧ stop = start ∧ value = .none
  | succeed v => stop = start ∧ value = v
  | fail _ => False

/-- The derivations of a value by a parser between two offsets of a text: a pair
splits its part of the text somewhere, a choice takes either side, repetitions are
a finite chain in which every item moves on, a function changes the value, a
description changes nothing, what looks ahead ends at its start, and a recursive
parser takes what its body takes. -/
inductive Derivation (rules : Rules) (text : Text) : Parser → Int → Int → Value → Type where
  | leaf {l : Leaf} {i j : Int} {v : Value} (h : l.Takes text i j v) :
    Derivation rules text (.leaf l) i j v
  | pair {p q : Parser} {i j k : Int} {u v : Value} (one : Derivation rules text p i j u)
    (other : Derivation rules text q j k v) : Derivation rules text (.pair p q) i k (.pair u v)
  | left {p q : Parser} {i j : Int} {v : Value} (d : Derivation rules text p i j v) :
    Derivation rules text (.or p q) i j v
  | right {p q : Parser} {i j : Int} {v : Value} (d : Derivation rules text q i j v) :
    Derivation rules text (.or p q) i j v
  | map {change : Outcome → Int → Action Outcome} {p : Parser} {f : Value → Action Value}
    {i j : Int} {u v : Value} (hc : change = Parser.onValue f) (d : Derivation rules text p i j u)
    (hf : (f u).result = .ok v) : Derivation rules text (.mapOutcome change p) i j v
  | describe {change : Outcome → Int → Action Outcome} {p : Parser} {expect : String} {i j : Int}
    {v : Value} (hc : change = Parser.described expect) (d : Derivation rules text p i j v) :
    Derivation rules text (.mapOutcome change p) i j v
  | peek {change : Outcome → Int → Action Outcome} {p : Parser} {i j : Int} {v : Value}
    (hc : change = Parser.rewound) (d : Derivation rules text p i j v) :
    Derivation rules text (.mapOutcome change p) i i v
  | none {p : Parser} {i : Int} : Derivation rules text (.many p) i i (.list [])
  | more {p : Parser} {i j k : Int} {u : Value} {us : List Value}
    (one : Derivation rules text p i j u) (hj : i < j)
    (others : Derivation rules text (.many p) j k (.list us)) :
    Derivation rules text (.many p) i k (.list (u :: us))
  | ref {handle : Handle} {body : Parser} {i j : Int} {v : Value}
    (hb : rules.body? handle = some body) (d : Derivation rules text body i j v) :
    Derivation rules text (.ref handle) i j v

/-- The parser is made of what there are rules for: no step functions of the user's,
nothing absent, and no change of outcomes but by a function of values, a description
or looking ahead. -/
def Parser.Plain : Parser → Prop :=
  Everywhere fun
    | custom _ | not _ => False
    | mapOutcome change _ =>
      (∃ f, change = onValue f) ∨ (∃ expect, change = described expect) ∨ change = rewound
    | _ => True

/-! ## Leaves -/

theorem Leaf.takes_iff {text : Text} {start stop : Int} {value : Value} {l : Leaf} :
    l.Takes text start stop value ↔ l.attempt text start = .ok (.success stop value) := by
  cases l with
  | string literal =>
    rw [Takes, attempt]
    by_cases h : text.holds literal.toList start
    · simp [h, eq_comm]
    · simp [h]
  | regexp pattern group =>
    rw [Takes, attempt]
    cases pattern.find group (text.remainder start) <;> simp [eq_comm]
  | endOfText =>
    rw [Takes, attempt]
    by_cases h : start = text.length
    · simp [h, eq_comm]
    · simp [h]
  | succeed v => simp [Takes, attempt, eq_comm]
  | fail expect => simp [Takes, attempt]

/-! ## Which rule was used -/

namespace Parser

theorem isSuccess_onValue {f : Value → Action Value} {o o' : Outcome} {i : Int}
    (h : (onValue f o i).result = .ok o') : o'.isSuccess = o.isSuccess := by
  rcases result_onValue h with ⟨_, _, rfl, rfl⟩ | ⟨_, _, _, rfl, _, rfl⟩ <;> rfl

/-- Changes that there are rules for never make a success of a failure. -/
theorem Plain.isSuccess {change : Outcome → Int → Action Outcome} {p : Parser}
    (hp : (p.mapOutcome change).Plain) {o o' : Outcome} {i : Int}
    (h : (change o i).result = .ok o') : o'.isSuccess = o.isSuccess := by
  rcases hp.1 with ⟨f, rfl⟩ | ⟨expect, rfl⟩ | rfl
  · exact isSuccess_onValue h
  · cases o <;> cases h <;> rfl
  · cases o <;> cases h <;> rfl

theorem onValue_injective : Function.Injective onValue := by
  intro f g h
  funext v
  have hv := congrFun (congrFun h (.success 0 v)) 0
  simp only [onValue, bind, Action.andThen, pure] at hv
  cases hf : f v with
  | mk events result =>
    cases hg : g v with
    | mk events' result' =>
      rw [hf, hg] at hv
      cases result <;> cases result' <;> simp_all

theorem described_injective : Function.Injective described := by
  intro e e' h
  have he := congrFun (congrFun h (.failure 0 "")) 0
  simp [described, pure] at he
  exact he

theorem onValue_ne_described {f : Value → Action Value} {e : String} : onValue f ≠ described e := by
  intro h
  have ha := congrFun (congrFun h (.failure 0 "a")) 0
  have hb := congrFun (congrFun h (.failure 0 "b")) 0
  simp [onValue, described, pure] at ha hb
  rw [← ha] at hb
  exact absurd hb (by decide)

theorem described_ne_rewound {e : String} : described e ≠ rewound := by
  intro h
  have h := congrFun (congrFun h (.success 1 .none)) 0
  simp [described, rewound, pure] at h

theorem onValue_ne_rewound {f : Value → Action Value} : onValue f ≠ rewound := by
  intro h
  have h := congrFun (congrFun h (.success 1 .none)) 0
  simp only [onValue, rewound, bind, Action.andThen, pure] at h
  split at h <;> simp at h

end Parser

/-! ## All derivations from one start -/

/-- A derivation from a start, with its end and its value. -/
structure Parse (rules : Rules) (text : Text) (p : Parser) (i : Int) where
  stop : Int
  value : Value
  derivation : Derivation rules text p i stop value

namespace Parse

variable {rules : Rules} {text : Text} {p q : Parser} {i : Int}

/-- The success that the derivation stands for. -/
def outcome (t : Parse rules text p i) : Outcome := .success t.stop t.value

/-- A derivation of a pair is one of the first and one of the second from its end. -/
def parts : Parse rules text (p.pair q) i → Σ t : Parse rules text p i, Parse rules text q t.stop
  | ⟨_, _, .pair one other⟩ => ⟨⟨_, _, one⟩, ⟨_, _, other⟩⟩

/-- A derivation of a choice is one of either side. -/
def side : Parse rules text (p.or q) i → Parse rules text p i ⊕ Parse rules text q i
  | ⟨_, _, .left d⟩ => .inl ⟨_, _, d⟩
  | ⟨_, _, .right d⟩ => .inr ⟨_, _, d⟩

/-- The derivation whose outcome is changed. -/
def unchanged {change : Outcome → Int → Action Outcome} :
    Parse rules text (p.mapOutcome change) i → Parse rules text p i
  | ⟨_, _, .map _ d _⟩ | ⟨_, _, .describe _ d⟩ | ⟨_, _, .peek _ d⟩ => ⟨_, _, d⟩

/-- A derivation of repetitions is one of an item and one of the others from its
end, or there is no item. -/
def items : Parse rules text p.many i →
    (Σ t : Parse rules text p i, Parse rules text p.many t.stop) ⊕ Unit
  | ⟨_, _, .more one _ others⟩ => .inl ⟨⟨_, _, one⟩, ⟨_, _, others⟩⟩
  | ⟨_, _, .none⟩ => .inr ()

/-- A derivation of a recursive parser is one of its body. -/
def unfolded {handle : Handle} {body : Parser} (hb : rules.body? handle = some body) :
    Parse rules text (.ref handle) i → Parse rules text body i
  | ⟨_, _, .ref hb' d⟩ => ⟨_, _, Option.some.inj (hb'.symm.trans hb) ▸ d⟩

theorem parts_bijective :
    Function.Bijective (parts : Parse rules text (p.pair q) i → _) := by
  constructor
  · rintro ⟨_, _, d⟩ ⟨_, _, d'⟩ h
    cases d
    cases d'
    cases h
    rfl
  · rintro ⟨⟨_, _, one⟩, ⟨_, _, other⟩⟩
    exact ⟨⟨_, _, .pair one other⟩, rfl⟩

theorem side_bijective : Function.Bijective (side : Parse rules text (p.or q) i → _) := by
  constructor
  · rintro ⟨_, _, d⟩ ⟨_, _, d'⟩ h
    cases d <;> cases d' <;> cases h <;> rfl
  · rintro (⟨_, _, d⟩ | ⟨_, _, d⟩)
    · exact ⟨⟨_, _, .left d⟩, rfl⟩
    · exact ⟨⟨_, _, .right d⟩, rfl⟩

/-- Items are enough for a chain of them only if each of them moves on. -/
theorem items_bijective (hlt : ∀ t : Parse rules text p i, i < t.stop) :
    Function.Bijective (items : Parse rules text p.many i → _) := by
  constructor
  · rintro ⟨_, _, d⟩ ⟨_, _, d'⟩ h
    cases d <;> cases d' <;> cases h <;> rfl
  · rintro (⟨t, ⟨_, _, others⟩⟩ | ⟨⟩)
    · cases others with
      | none => exact ⟨⟨_, _, .more t.derivation (hlt t) .none⟩, rfl⟩
      | more one hj others =>
        exact ⟨⟨_, _, .more t.derivation (hlt t) (.more one hj others)⟩, rfl⟩
    · exact ⟨⟨_, _, .none⟩, rfl⟩

section Unfolded

variable {handle : Handle} {body : Parser} (hb : rules.body? handle = some body)

theorem outcome_unfolded (t : Parse rules text (.ref handle) i) :
    (t.unfolded hb).outcome = t.outcome := by
  obtain ⟨_, _, d⟩ := t
  cases d
  rfl

theorem unfolded_bijective :
    Function.Bijective (unfolded hb : Parse rules text (.ref handle) i → _) := by
  constructor
  · rintro ⟨_, _, d⟩ ⟨_, _, d'⟩ h
    cases d with
    | ref hd d =>
      cases d' with
      | ref hd' d' =>
        obtain rfl := Option.some.inj (hd.symm.trans hb)
        obtain rfl := Option.some.inj (hd'.symm.trans hb)
        cases h
        rfl
  · rintro ⟨_, _, d⟩
    exact ⟨⟨_, _, .ref hb d⟩, rfl⟩

end Unfolded

variable {change : Outcome → Int → Action Outcome}

theorem change_unchanged (t : Parse rules text (p.mapOutcome change) i) :
    (change t.unchanged.outcome i).result = .ok t.outcome := by
  obtain ⟨_, _, d⟩ := t
  cases d with
  | map hc d hf =>
    subst hc
    simp only [unchanged, outcome, Parser.onValue, bind, Action.andThen, hf]
    rfl
  | describe hc d => subst hc; rfl
  | peek hc d => subst hc; rfl

theorem unchanged_injective :
    Function.Injective (unchanged : Parse rules text (p.mapOutcome change) i → _) := by
  rintro ⟨j, v, d⟩ ⟨j', v', d'⟩ h
  cases d with
  | map hc d hf =>
    cases d' with
    | map hc' d' hf' =>
      cases h
      obtain rfl := Parser.onValue_injective (hc.symm.trans hc')
      cases hf.symm.trans hf'
      rfl
    | describe hc' d' => exact absurd (hc.symm.trans hc') Parser.onValue_ne_described
    | peek hc' d' => exact absurd (hc.symm.trans hc') Parser.onValue_ne_rewound
  | describe hc d =>
    cases d' with
    | map hc' d' hf' => exact absurd (hc'.symm.trans hc) Parser.onValue_ne_described
    | describe hc' d' =>
      cases h
      obtain rfl := Parser.described_injective (hc.symm.trans hc')
      rfl
    | peek hc' d' => exact absurd (hc.symm.trans hc') Parser.described_ne_rewound
  | peek hc d =>
    cases d' with
    | map hc' d' hf' => exact absurd (hc'.symm.trans hc) Parser.onValue_ne_rewound
    | describe hc' d' => exact absurd (hc'.symm.trans hc) Parser.described_ne_rewound
    | peek hc' d' =>
      cases h
      rfl

/-- Every derivation of the body is changed, if the change answers for it. -/
theorem unchanged_bijective (hplain : (p.mapOutcome change).Plain)
    (hresult : ∀ t : Parse rules text p i, ∃ o, (change t.outcome i).result = .ok o) :
    Function.Bijective (unchanged : Parse rules text (p.mapOutcome change) i → _) := by
  refine ⟨unchanged_injective, fun t => ?_⟩
  rcases hplain.1 with ⟨f, hc⟩ | ⟨expect, hc⟩ | hc
  · obtain ⟨o, ho⟩ := hresult t
    rw [hc] at ho
    rcases Parser.result_onValue ho with ⟨_, _, h, _⟩ | ⟨j, v, w, h, hw, _⟩
    · cases h
    · cases h
      exact ⟨⟨_, _, .map hc t.derivation hw⟩, rfl⟩
  · exact ⟨⟨_, _, .describe hc t.derivation⟩, rfl⟩
  · exact ⟨⟨_, _, .peek hc t.derivation⟩, rfl⟩

end Parse

end Backtrack
