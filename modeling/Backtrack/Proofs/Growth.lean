-- The laws of growth: a table of recursive parsers only gains entries. A stream that was
-- started when the table was smaller is not disturbed by what is written down later, for
-- its parsers refer to handles that were given out before, and these keep their bodies.
import Backtrack.Proofs.Fuel
import Backtrack.Proofs.Parts
import Backtrack.Parse

namespace Backtrack

/-! ## What searches answer -/

namespace Search

variable {α β : Type} {P : α → Prop} {Q : β → Prop}

/-- Whatever the search answers, if it is no fault, is as said. -/
def Ensures (x : Search α) (P : α → Prop) : Prop := ∀ events a, x = some ⟨events, .ok a⟩ → P a

theorem ensures_pure {a : α} (ha : P a) : Ensures (pure a) P := by
  intro events b h
  cases h
  exact ha

theorem Ensures.bind {x : Search α} {f : α → Search β} (hx : x.Ensures P)
    (hf : ∀ a, P a → (f a).Ensures Q) : (x >>= f).Ensures Q := by
  intro events b h
  rcases of_bind h with ⟨events, fault, _, hb⟩ | ⟨events, a, y, hxa, hy, hb⟩
  · cases hb
  · obtain ⟨later, result⟩ := y
    cases hb
    exact hf a (hx events a hxa) later b hy

/-- The searches answer the same, and what they answer is as said. -/
structure SameAs (P : α → Prop) (x y : Search α) : Prop where
  eq : x = y
  ensures : x.Ensures P

theorem sameAs_pure {a : α} (ha : P a) : SameAs P (pure a) (pure a) := ⟨rfl, ensures_pure ha⟩

/-- Where the search gives nothing, nothing needs to be said. -/
theorem sameAs_outOfFuel : SameAs P outOfFuel outOfFuel := by
  refine ⟨rfl, fun events a h => ?_⟩
  cases h

theorem sameAs_raise (fault : Fault) : SameAs P (ofAction (Action.raise fault)) (ofAction (Action.raise fault)) := by
  refine ⟨rfl, fun events a h => ?_⟩
  cases h

/-- Nothing needs to be said of what an action gives. -/
theorem sameAs_action (x : Search α) : SameAs (fun _ => True) x x := ⟨rfl, fun _ _ _ => trivial⟩

theorem SameAs.bind {x y : Search α} {f g : α → Search β} (h : SameAs P x y)
    (hf : ∀ a, P a → SameAs Q (f a) (g a)) : SameAs Q (x >>= f) (y >>= g) := by
  obtain ⟨rfl, hx⟩ := h
  refine ⟨?_, hx.bind fun a ha => (hf a ha).ensures⟩
  rcases x with _ | ⟨events, fault | a⟩
  · rfl
  · rfl
  · have hsame : f a = g a := (hf a (hx events a rfl)).eq
    simp only [Bind.bind, andThen, hsame]

end Search

/-! ## Handles -/

namespace Parser

/-- The parser refers to no recursive parser but those of the first so many handles. -/
def RefersBelow (n : Handle) : Parser → Prop :=
  Everywhere fun
    | ref handle => handle < n
    | _ => True

theorem RefersBelow.mono {n m : Handle} (hnm : n ≤ m) {p : Parser} (h : p.RefersBelow n) :
    p.RefersBelow m := by
  refine Everywhere.imp (fun p hp => ?_) h
  cases p with
  | ref handle => exact Nat.lt_of_lt_of_le hp hnm
  | leaf | custom | pair | or | mapOutcome | not | many => trivial

end Parser

namespace Stream

/-- The parsers that are still to be started refer to the first so many handles only. -/
def RefersBelow (n : Handle) : Stream → Prop
  | items _ => True
  | waiting p _ => p.RefersBelow n
  | first left q => left.RefersBelow n ∧ q.RefersBelow n
  | second _ inner left q => inner.RefersBelow n ∧ left.RefersBelow n ∧ q.RefersBelow n
  | either left q _ => left.RefersBelow n ∧ q.RefersBelow n
  | changed _ _ inner => inner.RefersBelow n
  | negated _ inner => inner.RefersBelow n

theorem RefersBelow.mono {n m : Handle} (hnm : n ≤ m) {s : Stream} (h : s.RefersBelow n) :
    s.RefersBelow m := by
  induction s with
  | items => trivial
  | waiting p i => exact Parser.RefersBelow.mono hnm h
  | first left q ih => exact ⟨ih h.1, h.2.mono hnm⟩
  | second value inner left q ihi ihl => exact ⟨ihi h.1, ihl h.2.1, h.2.2.mono hnm⟩
  | either left q i ih => exact ⟨ih h.1, h.2.mono hnm⟩
  | changed change i inner ih => exact ih h
  | negated i inner ih => exact ih h

end Stream

/-- What a stream has yielded is as said of the stream that is left. -/
def Script.Next.Leaves {σ : Type} (P : σ → Prop) : Script.Next σ → Prop
  | .ended => True
  | .yielded _ rest => P rest

namespace Rules

/-- The bodies of the table refer to handles that were given out. -/
def Closed (rules : Rules) : Prop := rules.All (Parser.RefersBelow rules.nextHandle)

/-- The second table has all that the first has. -/
structure Grows (rules rules' : Rules) : Prop where
  nextHandle_le : rules.nextHandle ≤ rules'.nextHandle
  body?_eq : ∀ handle < rules.nextHandle, rules'.body? handle = rules.body? handle

theorem Grows.refl (rules : Rules) : rules.Grows rules := ⟨Nat.le_refl _, fun _ _ => rfl⟩

theorem Grows.trans {rules rules' rules'' : Rules} (h : rules.Grows rules')
    (h' : rules'.Grows rules'') : rules.Grows rules'' := by
  refine ⟨Nat.le_trans h.nextHandle_le h'.nextHandle_le, fun handle hhandle => ?_⟩
  rw [h'.body?_eq handle (Nat.lt_of_lt_of_le hhandle h.nextHandle_le), h.body?_eq handle hhandle]

end Rules

/-! ## Running with a table that has grown -/

variable {rules rules' : Rules} (text : Text)

namespace Parser

theorem start_grown (hrules : rules.Closed) (hgrown : rules.Grows rules') {p : Parser}
    (hp : p.RefersBelow rules.nextHandle) (n : Nat) (i : Int) :
    Search.SameAs (Stream.RefersBelow rules.nextHandle) (p.start rules text n i)
      (p.start rules' text n i) := by
  induction n generalizing p with
  | zero => exact Search.sameAs_outOfFuel
  | succ n ih =>
    cases p with
    | custom step =>
      exact (Search.sameAs_action _).bind fun s _ => Search.sameAs_pure trivial
    | ref handle =>
      simp only [start]
      rw [hgrown.body?_eq handle hp]
      cases hb : rules.body? handle with
      | none => exact Search.sameAs_raise .undefinedHandle
      | some body => exact ih (hrules handle body hb)
    | leaf | pair | or | mapOutcome | not | many => exact Search.sameAs_pure (a := Stream.waiting _ i) hp

theorem resume_grown (hrules : rules.Closed) (hgrown : rules.Grows rules') {p : Parser}
    (hp : p.RefersBelow rules.nextHandle) (n : Nat) (i : Int) :
    Search.SameAs (Stream.RefersBelow rules.nextHandle) (p.resume rules text n i)
      (p.resume rules' text n i) := by
  cases p with
  | leaf l => exact Search.sameAs_pure trivial
  | custom | ref => exact start_grown text hrules hgrown hp n i
  | pair p q | or p q =>
    refine (start_grown text hrules hgrown hp.2.1 n i).bind fun s hs => ?_
    exact Search.sameAs_pure ⟨hs, hp.2.2⟩
  | mapOutcome change p | not p =>
    exact (start_grown text hrules hgrown hp.2 n i).bind fun s hs => Search.sameAs_pure hs
  | many p =>
    have hunfold : p.unfoldMany.RefersBelow rules.nextHandle :=
      ⟨trivial, ⟨trivial, trivial, ⟨trivial, hp.2⟩, hp⟩, trivial⟩
    exact Search.sameAs_pure (a := Stream.waiting _ i) hunfold

end Parser

namespace Stream

theorem pull_grown (hrules : rules.Closed) (hgrown : rules.Grows rules') {s : Stream}
    (hs : s.RefersBelow rules.nextHandle) (n : Nat) :
    Search.SameAs (Script.Next.Leaves (RefersBelow rules.nextHandle)) (s.pull rules text n)
      (s.pull rules' text n) := by
  induction n generalizing s with
  | zero => exact Search.sameAs_outOfFuel
  | succ n ih =>
    cases s with
    | items rest =>
      refine (Search.sameAs_action rest.next).bind fun next _ => ?_
      cases next with
      | ended | yielded => exact Search.sameAs_pure trivial
    | waiting p i =>
      simp only [pull]
      exact (Parser.resume_grown text hrules hgrown hs n i).bind fun s => ih
    | first left q =>
      simp only [pull]
      refine (ih hs.1).bind fun next hnext => ?_
      rcases next with _ | ⟨⟨index, value⟩ | ⟨index, expect⟩, left⟩
      · exact Search.sameAs_pure trivial
      · exact (Parser.start_grown text hrules hgrown hs.2 n index).bind fun inner hinner =>
          ih ⟨hinner, hnext, hs.2⟩
      · exact Search.sameAs_pure ⟨hnext, hs.2⟩
    | second value inner left q =>
      simp only [pull]
      refine (ih hs.1).bind fun next hnext => ?_
      rcases next with _ | ⟨o, inner⟩
      · exact ih hs.2
      · exact Search.sameAs_pure ⟨hnext, hs.2⟩
    | either left q i =>
      simp only [pull]
      refine (ih hs.1).bind fun next hnext => ?_
      rcases next with _ | ⟨o, left⟩
      · exact (Parser.start_grown text hrules hgrown hs.2 n i).bind fun s => ih
      · exact Search.sameAs_pure ⟨hnext, hs.2⟩
    | changed change i inner =>
      simp only [pull]
      refine (ih (s := inner) hs).bind fun next hnext => ?_
      rcases next with _ | ⟨o, inner⟩
      · exact Search.sameAs_pure trivial
      · exact (Search.sameAs_action _).bind fun o _ => Search.sameAs_pure hnext
    | negated i inner =>
      simp only [pull]
      refine (ih (s := inner) hs).bind fun next hnext => ?_
      rcases next with _ | ⟨⟨index, value⟩ | ⟨index, expect⟩, inner⟩
      · exact Search.sameAs_pure trivial
      · exact Search.sameAs_pure trivial
      · exact ih hnext

theorem advance_grown (hrules : rules.Closed) (hgrown : rules.Grows rules') {s : Stream}
    (hs : s.RefersBelow rules.nextHandle) (fuel : Nat) :
    s.advance rules' text fuel = s.advance rules text fuel ∧
      ∀ x, s.advance rules text fuel = some x → x.2.RefersBelow rules.nextHandle := by
  obtain ⟨heq, hleaves⟩ := pull_grown text hrules hgrown hs fuel
  unfold advance
  rw [← heq]
  refine ⟨rfl, fun x hx => ?_⟩
  rcases hp : s.pull rules text fuel with _ | ⟨events, fault | _ | ⟨o, rest⟩⟩
  · rw [hp] at hx
    cases hx
  · rw [hp] at hx
    cases hx
    trivial
  · rw [hp] at hx
    cases hx
    trivial
  · rw [hp] at hx
    cases hx
    exact hleaves events _ hp

theorem read_grown (hrules : rules.Closed) (hgrown : rules.Grows rules') {s : Stream}
    (hs : s.RefersBelow rules.nextHandle) (fuel : Nat) (wanted : Outcome → Bool) (k : Nat) :
    s.read rules' text fuel wanted k = s.read rules text fuel wanted k ∧
      ∀ r, s.read rules text fuel wanted k = some r → r.rest.RefersBelow rules.nextHandle := by
  induction k generalizing s with
  | zero =>
    refine ⟨rfl, fun r hr => ?_⟩
    cases hr
    exact hs
  | succ k ih =>
    obtain ⟨heq, hrest⟩ := advance_grown text hrules hgrown hs fuel
    unfold read
    rw [heq]
    rcases hadvance : s.advance rules text fuel with _ | ⟨⟨events, fault | _ | o⟩, rest⟩
    · refine ⟨rfl, fun r hr => ?_⟩
      cases hr
    · refine ⟨rfl, fun r hr => ?_⟩
      cases hr
      exact hrest _ hadvance
    · refine ⟨rfl, fun r hr => ?_⟩
      cases hr
      exact hrest _ hadvance
    · obtain ⟨hlater, hlast⟩ := ih (hrest _ hadvance)
      simp only [Option.bind_eq_bind, Option.bind_some]
      by_cases hw : wanted o = true
      · rw [if_pos hw, if_pos hw]
        refine ⟨rfl, fun r hr => ?_⟩
        cases hr
        exact hrest _ hadvance
      · rw [if_neg hw, if_neg hw, hlater]
        refine ⟨rfl, fun r hr => ?_⟩
        obtain ⟨later, hr', hr⟩ := Option.bind_eq_some_iff.mp hr
        cases hr
        exact hlast later hr'

theorem report_grown (hrules : rules.Closed) (hgrown : rules.Grows rules') {s : Stream}
    (hs : s.RefersBelow rules.nextHandle) (fuel : Nat) :
    s.report rules' text fuel = s.report rules text fuel ∧
      ∀ x, s.report rules text fuel = some x → x.2.RefersBelow rules.nextHandle := by
  obtain ⟨heq, hrest⟩ := read_grown text hrules hgrown hs fuel Outcome.isSuccess fuel
  unfold report
  rw [heq]
  refine ⟨rfl, fun x hx => ?_⟩
  obtain ⟨r, hr, hx⟩ := Option.bind_eq_some_iff.mp hx
  cases hstop : r.stop with
  | faulted fault =>
    simp only [hstop] at hx
    cases hx
    exact hrest r hr
  | exhausted =>
    simp only [hstop] at hx
    cases hx
    exact hrest r hr
  | satisfied =>
    simp only [hstop] at hx
    split at hx
    · cases hx
      exact hrest r hr
    · cases hx

end Stream

end Backtrack
