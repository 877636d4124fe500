-- The law of conduct: what a run may record in the log and which faults it may meet. Where
-- nothing of the user's writes records, the only record is that of a repetition that is
-- refused, which stands right before its fault; and every other fault comes from a part of
-- the parser. No way of putting scripts together adds a record or hides a fault.
import Backtrack.Proofs.Guard
import Backtrack.Proofs.Range

namespace Backtrack

variable {own : Fault → Prop}

/-! ## What writes no records -/

/-- The action writes no record, and if it meets a fault, this is one of the given ones. -/
structure Action.Quiet {α : Type} (own : Fault → Prop) (x : Action α) : Prop where
  log_eq : Event.log x.events = []
  own_of_error : ∀ fault, x.result = .error fault → own fault

namespace Action.Quiet

variable {α β : Type}

theorem pure (a : α) : Action.Quiet own (Pure.pure a) := ⟨rfl, nofun⟩

theorem bind {x : Action α} {f : α → Action β} (hx : x.Quiet own) (hf : ∀ a, (f a).Quiet own) :
    (x >>= f).Quiet own := by
  obtain ⟨events, fault | a⟩ := x
  · exact ⟨hx.log_eq, fun fault' h => hx.own_of_error fault' (by cases h; rfl)⟩
  · refine ⟨?_, (hf a).own_of_error⟩
    have hlog := Event.log_append events (f a).events
    rwa [hx.log_eq, (hf a).log_eq] at hlog

/-- A function of values does to outcomes what it does to values. -/
theorem onValue {f : Value → Action Value} (hf : ∀ v, (f v).Quiet own) (o : Outcome) (i : Int) :
    (Parser.onValue f o i).Quiet own := by
  cases o with
  | failure index expect => exact .pure _
  | success index value => exact (hf value).bind fun _ => .pure _

end Action.Quiet

namespace Script

/-- The script writes no record, and if a fault cuts it off, this is one of the given ones. -/
structure Quiet (own : Fault → Prop) (s : Script) : Prop where
  log_eq : Event.log s.events = []
  own_of_endsIn : ∀ fault, s.EndsIn fault → own fault

variable {s t : Script}

/-- The script writes no record but that of a refused repetition, right before its fault,
and every other fault is one of the given ones. -/
inductive Watched (own : Fault → Prop) : Script → Prop where
  | done : Watched own done
  | unread : Watched own unread
  | raised {fault : Fault} : own fault → Watched own (raised fault)
  | refusal (k : Int) : Watched own (refusal k)
  | event {e : Event} {rest : Script} : e.record? = none → Watched own rest →
    Watched own (event e rest)
  | outcome (o : Outcome) {rest : Script} : Watched own rest → Watched own (outcome o rest)

namespace Watched

theorem single (o : Outcome) : (single o).Watched own := .outcome o .done

theorem ofResult {x : Except Fault Outcome} (h : ∀ fault, x = .error fault → own fault) :
    (ofResult x).Watched own := by
  cases x with
  | ok o => exact .single o
  | error fault => exact .raised (h fault rfl)

theorem withEvents {events : List Event} (h : s.Watched own) (hlog : Event.log events = []) :
    (withEvents events s).Watched own := by
  have hnone : ∀ e ∈ events, e.record? = none := List.filterMap_eq_nil_iff.mp hlog
  clear hlog
  induction events with
  | nil => exact h
  | cons e events ih =>
    obtain ⟨he, hrest⟩ := List.forall_mem_cons.mp hnone
    exact .event he (ih hrest)

/-- A script that writes no records passes for one that does so only where it may. -/
theorem ofQuiet (h : s.Quiet own) : s.Watched own := by
  induction s with
  | done => exact .done
  | unread => exact .unread
  | raised fault => exact .raised (h.own_of_endsIn fault rfl)
  | event e rest ih =>
    obtain ⟨he, hrest⟩ := List.forall_mem_cons.mp (List.filterMap_eq_nil_iff.mp h.log_eq)
    exact .event he (ih ⟨List.filterMap_eq_nil_iff.mpr hrest, h.own_of_endsIn⟩)
  | outcome o rest ih => exact .outcome o (ih ⟨h.log_eq, h.own_of_endsIn⟩)

/-! ## Scripts put together -/

theorem append (hs : s.Watched own) (ht : t.Watched own) : (s.append t).Watched own := by
  induction hs with
  | done => exact ht
  | unread => exact .unread
  | raised h => exact .raised h
  | refusal k => exact .refusal k
  | event he _ ih => exact .event he ih
  | outcome o _ ih => exact .outcome o ih

theorem expand {f : Outcome → Script} (hs : s.Watched own) (hf : ∀ o, (f o).Watched own) :
    (s.expand f).Watched own := by
  induction hs with
  | done => exact .done
  | unread => exact .unread
  | raised h => exact .raised h
  | refusal k => exact .refusal k
  | event he _ ih => exact .event he ih
  | outcome o _ ih => exact (hf o).append ih

theorem upToSuccess {found : Int → Script} {otherwise : Script} (hs : s.Watched own)
    (hfound : ∀ stop, (found stop).Watched own) (hotherwise : otherwise.Watched own) :
    (upToSuccess found otherwise s).Watched own := by
  induction hs with
  | done => exact hotherwise
  | unread => exact .unread
  | raised h => exact .raised h
  | refusal k => exact .refusal k
  | event he _ ih => exact .event he ih
  | outcome o _ ih =>
    cases o with
    | success index value => exact hfound index
    | failure index expect => exact ih

theorem change {f : Outcome → Action Outcome} (hs : s.Watched own) (hf : ∀ o, (f o).Quiet own) :
    (s.change f).Watched own :=
  hs.expand fun o => (ofResult (hf o).own_of_error).withEvents (hf o).log_eq

theorem pairWith {second : Int → Script} (hs : s.Watched own)
    (hsecond : ∀ j, (second j).Watched own) : (s.pairWith second).Watched own := by
  refine hs.expand fun o => ?_
  cases o with
  | failure index expect => exact .single _
  | success index value => exact (hsecond index).expand fun o => .single _

theorem negate (text : Text) (start : Int) (hs : s.Watched own) : (s.negate text start).Watched own :=
  hs.upToSuccess (fun _ => .single _) (.single _)

/-- What is refused is refused with a record, and behind all else repetitions go on. -/
theorem repeated {body : Int → Script} (hbody : ∀ i, (body i).Watched own) (n : Nat) (i : Int) :
    (Parser.repeated body n i).Watched own := by
  induction n generalizing i with
  | zero => exact .unread
  | succ n ih =>
    rw [Parser.repeated_succ_eq_guarded]
    refine ((hbody i).expand fun o => ?_).append (.single _)
    cases o with
    | failure index expect => exact .single _
    | success j v =>
      rw [Parser.guarded]
      by_cases hj : j ≤ i
      · rw [if_pos hj]
        exact .refusal i
      · rw [if_neg hj]
        exact (ih j).expand fun o => .single _

end Watched

end Script

/-! ## What is seen of a run -/

namespace Shown

/-- A repetition was refused: its record was written last of all, and no other one was. -/
structure Refuses (r : Shown) (offset : Int) : Prop where
  stop_eq : r.stop = .faulted (.emptyRepetition offset)
  log_eq : Event.log r.events = [.emptyRepetition offset]
  last_eq : r.events.getLast? = some (.logged (.emptyRepetition offset))

/-- No record was written, and if a fault was met, it is one of the given ones. -/
structure Quiet (own : Fault → Prop) (r : Shown) : Prop where
  log_eq : Event.log r.events = []
  own_of_stop : ∀ fault, r.stop = .faulted fault → own fault

variable {r : Shown} {offset : Int}

theorem quiet_satisfied (outcomes : List Outcome) : Quiet own ⟨[], outcomes, .satisfied⟩ := ⟨rfl, nofun⟩

theorem quiet_exhausted : Quiet own ⟨[], [], .exhausted⟩ := ⟨rfl, nofun⟩

theorem Refuses.event {e : Event} (he : e.record? = none) (h : r.Refuses offset) :
    Refuses { r with events := e :: r.events } offset := by
  refine ⟨h.stop_eq, (List.filterMap_cons_none he).trans h.log_eq, ?_⟩
  rw [List.getLast?_cons, h.last_eq]
  rfl

theorem Quiet.event {e : Event} (he : e.record? = none) (h : r.Quiet own) :
    Quiet own { r with events := e :: r.events } :=
  ⟨(List.filterMap_cons_none he).trans h.log_eq, h.own_of_stop⟩

end Shown

/-- What is read of a watched script ends in a refusal, or has nothing in the log. -/
theorem Script.Watched.read {s : Script} (hs : s.Watched own) {wanted : Outcome → Bool} {n : Nat}
    {r : Shown} (h : s.read wanted n = some r) : (∃ offset, r.Refuses offset) ∨ r.Quiet own := by
  induction hs generalizing n r with
  | done =>
    cases n <;> cases h
    · exact Or.inr (Shown.quiet_satisfied [])
    · exact Or.inr Shown.quiet_exhausted
  | unread =>
    cases n <;> cases h
    exact Or.inr (Shown.quiet_satisfied [])
  | raised howned =>
    cases n <;> cases h
    · exact Or.inr (Shown.quiet_satisfied [])
    · refine Or.inr ⟨rfl, fun fault hstop => ?_⟩
      cases hstop
      exact howned
  | refusal k =>
    cases n <;> cases h
    · exact Or.inr (Shown.quiet_satisfied [])
    · exact Or.inl ⟨k, rfl, rfl, rfl⟩
  | event he _ ih =>
    cases n with
    | zero =>
      cases h
      exact Or.inr (Shown.quiet_satisfied [])
    | succ n =>
      obtain ⟨r', hr', rfl⟩ := Option.map_eq_some_iff.mp h
      rcases ih hr' with ⟨offset, hrefuses⟩ | hquiet
      · exact Or.inl ⟨offset, hrefuses.event he⟩
      · exact Or.inr (hquiet.event he)
  | outcome o _ ih =>
    cases n with
    | zero =>
      cases h
      exact Or.inr (Shown.quiet_satisfied [])
    | succ n =>
      rw [Script.read] at h
      by_cases hw : wanted o
      · rw [if_pos hw] at h
        cases h
        exact Or.inr (Shown.quiet_satisfied [o])
      · rw [if_neg hw] at h
        obtain ⟨r', hr', rfl⟩ := Option.map_eq_some_iff.mp h
        -- An outcome that is read over changes neither the log nor the end.
        rcases ih hr' with ⟨offset, hrefuses⟩ | hquiet
        · exact Or.inl ⟨offset, hrefuses.stop_eq, hrefuses.log_eq, hrefuses.last_eq⟩
        · exact Or.inr ⟨hquiet.log_eq, hquiet.own_of_stop⟩

namespace Parser

variable {rules : Rules} {text : Text} {p q : Parser}

/-! ## Parsers that write no records -/

/-- The step functions and the functions of outcomes in the parser write no records, and all
faults that they, the leaves and references without a body meet are given ones. -/
def Quiet (own : Fault → Prop) (rules : Rules) (text : Text) : Parser → Prop :=
  Everywhere fun
    | leaf l => ∀ i fault, l.attempt text i = .error fault → own fault
    | custom step => ∀ i, Script.Quiet own (.ofAction (step text i))
    | mapOutcome change _ => ∀ o i, Action.Quiet own (change o i)
    | ref handle => rules.body? handle = none → own .undefinedHandle
    | _ => True

/-- One level of recursion. -/
theorem Quiet.watched_scriptWith {recursive : Handle → Int → Script}
    (hr : ∀ handle, (rules.body? handle = none → own .undefinedHandle) →
      ∀ i, (recursive handle i).Watched own)
    (n : Nat) (hp : p.Quiet own rules text) (i : Int) :
    (p.scriptWith text n recursive i).Watched own := by
  induction p generalizing i with
  | leaf l => exact .ofResult (hp i)
  | custom step => exact .ofQuiet (hp i)
  | pair p q ihp ihq => exact (ihp hp.2.1 i).pairWith (ihq hp.2.2)
  | or p q ihp ihq => exact (ihp hp.2.1 i).append (ihq hp.2.2 i)
  | mapOutcome change p ih => exact (ih hp.2 i).change fun o => hp.1 o i
  | not p ih => exact (ih hp.2 i).negate text i
  | many p ih => exact .repeated (ih hp.2) n i
  | ref handle => exact hr handle hp i

/-- What is recorded and what is raised in a script of a parser is watched. -/
theorem Quiet.watched (hrules : rules.All (Quiet own rules text)) (hp : p.Quiet own rules text)
    (n : Nat) (i : Int) : (p.script rules text n i).Watched own := by
  induction n generalizing p i with
  | zero => exact hp.watched_scriptWith (fun _ _ _ => .unread) 0 i
  | succ n ih =>
    refine hp.watched_scriptWith (fun handle hown i => ?_) (n + 1) i
    cases hb : rules.body? handle with
    | none => exact .raised (hown hb)
    | some body => exact ih (hrules handle body hb) i

end Parser

end Backtrack
