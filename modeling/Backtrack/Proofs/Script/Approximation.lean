-- Approximation: a script that stays unread stands for every script that goes
-- on from there. More recursion only reads a script further, so the scripts of
-- a parser under growing limits approximate one and the same script.
import Backtrack.Proofs.Script.Reading
import Mathlib.Order.Basic

namespace Backtrack

namespace Script

/-! ## The order -/

/-- The second script is the first, perhaps read further. -/
inductive ReadFurther : Script → Script → Prop where
  | unread (t : Script) : ReadFurther unread t
  | done : ReadFurther done done
  | raised (fault : Fault) : ReadFurther (raised fault) (raised fault)
  | event (e : Event) {s t : Script} : ReadFurther s t → ReadFurther (event e s) (event e t)
  | outcome (o : Outcome) {s t : Script} :
      ReadFurther s t → ReadFurther (outcome o s) (outcome o t)

theorem ReadFurther.refl (s : Script) : ReadFurther s s := by
  induction s with
  | done => exact .done
  | raised fault => exact .raised fault
  | unread => exact .unread _
  | event e rest ih => exact .event e ih
  | outcome o rest ih => exact .outcome o ih

theorem ReadFurther.trans {s t u : Script} (h : ReadFurther s t) (h' : ReadFurther t u) :
    ReadFurther s u := by
  induction h generalizing u with
  | unread => exact .unread u
  | done | raised => exact h'
  | event e _ ih =>
    cases h' with
    | event _ h' => exact .event e (ih h')
  | outcome o _ ih =>
    cases h' with
    | outcome _ h' => exact .outcome o (ih h')

instance : Preorder Script where
  le := ReadFurther
  le_refl := ReadFurther.refl
  le_trans _ _ _ := ReadFurther.trans

theorem unread_le (s : Script) : unread ≤ s := .unread s

/-- Nothing is left to be read of a script that is known to its end. -/
theorem Whole.eq_of_le {s t : Script} (hs : s.Whole) (h : s ≤ t) : s = t := by
  induction h with
  | unread => exact hs.elim
  | done | raised => rfl
  | event e _ ih => rw [ih hs]
  | outcome o _ ih => rw [ih hs]

theorem Whole.of_le {s t : Script} (hs : s.Whole) (h : s ≤ t) : t.Whole := hs.eq_of_le h ▸ hs

theorem outcomes_prefix_of_le {s t : Script} (h : s ≤ t) : s.outcomes <+: t.outcomes := by
  induction h with
  | unread => exact List.nil_prefix
  | done | raised => exact List.prefix_refl _
  | event e _ ih => exact ih
  | outcome o _ ih => exact List.prefix_cons_inj o |>.mpr ih

/-- What a script shows, it still shows when it is read further. -/
theorem read_of_le {s t : Script} (h : s ≤ t) {wanted : Outcome → Bool} {n : Nat} {r : Shown}
    (hr : s.read wanted n = some r) : t.read wanted n = some r := by
  induction h generalizing n r with
  | unread => cases n <;> cases hr; simp [read]
  | done | raised => exact hr
  | event e _ ih =>
    cases n with
    | zero => exact hr
    | succ n =>
      obtain ⟨r', hr', rfl⟩ := Option.map_eq_some_iff.mp hr
      rw [read, ih hr']
      rfl
  | outcome o _ ih =>
    cases n with
    | zero => exact hr
    | succ n =>
      rw [read] at hr ⊢
      by_cases hw : wanted o
      · rw [if_pos hw] at hr ⊢
        exact hr
      · rw [if_neg hw] at hr ⊢
        obtain ⟨r', hr', rfl⟩ := Option.map_eq_some_iff.mp hr
        rw [ih hr']
        rfl

/-! ## What is put together from scripts is read further with its parts -/

theorem withEvents_le (events : List Event) {s t : Script} (h : s ≤ t) :
    withEvents events s ≤ withEvents events t := by
  induction events with
  | nil => exact h
  | cons e events ih => exact .event e ih

theorem append_le {s s' t t' : Script} (hs : s ≤ s') (ht : t ≤ t') : s.append t ≤ s'.append t' := by
  induction hs with
  | unread => exact unread_le _
  | done => exact ht
  | raised fault => exact .raised fault
  | event e _ ih => exact .event e ih
  | outcome o _ ih => exact .outcome o ih

theorem expand_le {s t : Script} {f g : Outcome → Script} (h : s ≤ t) (hfg : ∀ o, f o ≤ g o) :
    s.expand f ≤ t.expand g := by
  induction h with
  | unread => exact unread_le _
  | done => exact .done
  | raised fault => exact .raised fault
  | event e _ ih => exact .event e ih
  | outcome o _ ih => exact append_le (hfg o) ih

theorem upToSuccess_le {s t : Script} {found : Int → Script} {otherwise : Script} (h : s ≤ t) :
    upToSuccess found otherwise s ≤ upToSuccess found otherwise t := by
  induction h with
  | unread => exact unread_le _
  | done => exact le_refl otherwise
  | raised fault => exact .raised fault
  | event e _ ih => exact .event e ih
  | outcome o _ ih =>
    cases o with
    | success index value => exact le_refl (found index)
    | failure index expect => exact ih

theorem pairWith_le {s t : Script} {q q' : Int → Script} (h : s ≤ t) (hq : ∀ j, q j ≤ q' j) :
    s.pairWith q ≤ t.pairWith q' := by
  apply expand_le h
  intro o
  cases o with
  | success index value => exact expand_le (hq index) fun o => le_refl _
  | failure index expect => exact le_refl _

theorem change_le {s t : Script} (f : Outcome → Action Outcome) (h : s ≤ t) :
    s.change f ≤ t.change f := expand_le h fun _ => le_refl _

theorem negate_le {s t : Script} (text : Text) (i : Int) (h : s ≤ t) :
    s.negate text i ≤ t.negate text i := upToSuccess_le h

end Script

/-! ## Parsers under growing limits -/

namespace Parser

variable {rules : Rules} {text : Text}

theorem repeated_le {body body' : Int → Script} (hb : ∀ i, body i ≤ body' i) {n m : Nat}
    (h : n ≤ m) (i : Int) : repeated body n i ≤ repeated body' m i := by
  induction n generalizing m i with
  | zero => exact Script.unread_le _
  | succ n ih =>
    obtain ⟨m, rfl⟩ : ∃ k, m = k + 1 := ⟨m - 1, by omega⟩
    have hone := Script.change_le (requireProgress · i) (hb i)
    have hmore := Script.pairWith_le hone fun j => ih (Nat.le_of_succ_le_succ h) j
    exact Script.append_le (Script.change_le _ hmore) (le_refl _)

theorem scriptWith_le {n m : Nat} (h : n ≤ m) {recursive recursive' : Handle → Int → Script}
    (hr : ∀ handle i, recursive handle i ≤ recursive' handle i) (p : Parser) (i : Int) :
    p.scriptWith text n recursive i ≤ p.scriptWith text m recursive' i := by
  induction p generalizing i with
  | leaf | custom => exact le_refl _
  | pair p q ihp ihq => exact Script.pairWith_le (ihp i) ihq
  | or p q ihp ihq => exact Script.append_le (ihp i) (ihq i)
  | mapOutcome change p ih => exact Script.change_le _ (ih i)
  | not p ih => exact Script.negate_le text i (ih i)
  | many p ih => exact repeated_le ih h i
  | ref handle => exact hr handle i

/-- A greater limit reads the script of a parser further. -/
theorem script_le {n m : Nat} (h : n ≤ m) (p : Parser) (i : Int) :
    p.script rules text n i ≤ p.script rules text m i := by
  induction n generalizing m p i with
  | zero =>
    cases m with
    | zero => exact le_refl _
    | succ m => exact scriptWith_le h (fun _ _ => Script.unread_le _) p i
  | succ n ih =>
    obtain ⟨m, rfl⟩ : ∃ k, m = k + 1 := ⟨m - 1, by omega⟩
    refine scriptWith_le h (fun handle i => ?_) p i
    cases rules.body? handle with
    | none => exact le_refl _
    | some body => exact ih (Nat.le_of_succ_le_succ h) body i

end Parser

end Backtrack
