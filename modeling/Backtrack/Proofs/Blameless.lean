-- The law of references: where every handle has a body, no run asks for one that is missing.
-- A run meets that fault at references alone, for no operator has it in its own functions.
-- So it is enough that the functions and steps of the user's do not end in it by themselves.
import Backtrack.Proofs.Building
import Backtrack.Proofs.Range

namespace Backtrack

/-! ## Actions and scripts -/

/-- The action does not end in the fault of a handle that has no body. -/
def Action.Blameless {α : Type} (x : Action α) : Prop := x.result ≠ .error .undefinedHandle

namespace Action.Blameless

variable {α β : Type}

theorem pure (a : α) : Action.Blameless (Pure.pure a) := nofun

theorem raise {fault : Fault} (h : fault ≠ .undefinedHandle) :
    Action.Blameless (Action.raise fault : Action α) := by
  intro h'
  cases h'
  exact h rfl

theorem getOrRaise {fault : Fault} (h : fault ≠ .undefinedHandle) (o : Option α) :
    Action.Blameless (Action.getOrRaise fault o) := by
  cases o with
  | none => exact .raise h
  | some a => exact .pure a

theorem bind {x : Action α} {f : α → Action β} (hx : x.Blameless) (hf : ∀ a, (f a).Blameless) :
    (x >>= f).Blameless := by
  obtain ⟨events, fault | a⟩ := x
  · intro h
    cases h
    exact hx rfl
  · exact hf a

theorem onValue {f : Value → Action Value} (hf : ∀ v, (f v).Blameless) (o : Outcome) (i : Int) :
    (Parser.onValue f o i).Blameless := by
  intro h
  obtain ⟨v, hv⟩ := Parser.fault_of_onValue h
  exact hf v hv

end Action.Blameless

/-- The script does not end in the fault of a handle that has no body. -/
def Script.Blameless (s : Script) : Prop := ¬ s.EndsIn .undefinedHandle

theorem Script.blameless_done : done.Blameless := id

theorem Script.blameless_unread : unread.Blameless := id

namespace Script.Blameless

variable {s t : Script}

theorem append (hs : s.Blameless) (ht : t.Blameless) : (s.append t).Blameless := fun h =>
  (endsIn_append h).elim hs ht

theorem change {f : Outcome → Action Outcome} (hs : s.Blameless) (hf : ∀ o, (f o).Blameless) :
    (s.change f).Blameless := by
  intro h
  rcases endsIn_change h with h | ⟨o, _, h⟩
  · exact hs h
  · exact hf o h

theorem pairWith {second : Int → Script} (hs : s.Blameless) (hsecond : ∀ j, (second j).Blameless) :
    (s.pairWith second).Blameless := by
  intro h
  rcases endsIn_pairWith h with h | ⟨j, _, _, h⟩
  · exact hs h
  · exact hsecond j h

end Script.Blameless

/-! ## Parsers -/

/-- No script of the step function ends in the fault of a handle that has no body. -/
def BlamelessStep (step : Text → Int → Action Script) : Prop :=
  ∀ text i, (Script.ofAction (step text i)).Blameless

namespace Parser

/-- None of the step functions and functions of outcomes in the parser ends in the fault of a
handle that has no body. -/
def Blameless : Parser → Prop :=
  Everywhere fun
    | custom step => BlamelessStep step
    | mapOutcome change _ => ∀ o i, (change o i).Blameless
    | _ => True

theorem blameless_requireProgress (o : Outcome) (i : Int) : (requireProgress o i).Blameless := by
  intro h
  cases fault_of_requireProgress h

theorem blameless_consValues (v : Value) : (consValues v).Blameless := by
  intro h
  cases fault_of_consValues h

theorem blameless_snocValues (v : Value) : (snocValues v).Blameless :=
  (Action.Blameless.getOrRaise (by nofun) _).bind fun _ => .pure _

namespace Blameless

variable {p q : Parser}

theorem pair (hp : p.Blameless) (hq : q.Blameless) : (p.pair q).Blameless := ⟨trivial, hp, hq⟩

theorem or (hp : p.Blameless) (hq : q.Blameless) : (p.or q).Blameless := ⟨trivial, hp, hq⟩

theorem not (hp : p.Blameless) : p.not.Blameless := ⟨trivial, hp⟩

theorem many (hp : p.Blameless) : p.many.Blameless := ⟨trivial, hp⟩

theorem map {f : Value → Action Value} (hp : p.Blameless) (hf : ∀ v, (f v).Blameless) :
    (p.map f).Blameless := ⟨.onValue hf, hp⟩

theorem keepFirst (hp : p.Blameless) (hq : q.Blameless) : (p.keepFirst q).Blameless :=
  (hp.pair hq).map fun _ => .pure _

theorem keepSecond (hp : p.Blameless) (hq : q.Blameless) : (p.keepSecond q).Blameless :=
  (hp.pair hq).map fun _ => .pure _

theorem cons (hp : p.Blameless) (hq : q.Blameless) : (p.cons q).Blameless :=
  (hp.pair hq).map blameless_consValues

theorem snoc (hp : p.Blameless) (hq : q.Blameless) : (p.snoc q).Blameless :=
  (hp.pair hq).map blameless_snocValues

theorem peek (hp : p.Blameless) : p.peek.Blameless := by
  refine ⟨fun o i => ?_, hp⟩
  cases o <;> exact .pure _

theorem describe (expect : String) (hp : p.Blameless) : (p.describe expect).Blameless := by
  refine ⟨fun o i => ?_, hp⟩
  cases o <;> exact .pure _

theorem binary (op : BinaryOp) (hp : p.Blameless) (hq : q.Blameless) : (op.apply p q).Blameless := by
  cases op with
  | pair => exact hp.pair hq
  | or => exact hp.or hq
  | keepSecond => exact hp.keepSecond hq
  | keepFirst => exact hp.keepFirst hq
  | cons => exact hp.cons hq
  | snoc => exact hp.snoc hq
  | sepBy => exact (hp.cons (hq.keepSecond hp).many).or trivial
  | sepBy1 => exact hp.cons (hq.keepSecond hp).many
  | notFollowedBy => exact hp.keepFirst hq.not
  | followedBy => exact hp.keepFirst hq.peek

end Blameless

end Parser

/-! ## Grammars -/

/-- The function of an operator does not end in the fault of a handle that has no body. -/
def UnaryOp.Blameless : UnaryOp → Prop
  | map f => ∀ v, (f v).Blameless
  | mapOutcome f => ∀ o i, (f o i).Blameless
  | _ => True

theorem Parser.Blameless.unary {p : Parser} {op : UnaryOp} (hop : op.Blameless) (hp : p.Blameless) :
    (op.apply p).Blameless := by
  cases op with
  | toEnd => exact hp.keepFirst trivial
  | many => exact hp.many
  | many1 => exact hp.cons hp.many
  | peek => exact hp.peek
  | not => exact hp.not
  | as value => exact hp.map fun _ => .pure value
  | describe expect => exact hp.describe expect
  | map f => exact hp.map hop
  | mapOutcome f => exact ⟨hop, hp⟩

/-- None of the functions and steps of the user's in the grammar ends in the fault of a handle
that has no body. -/
def Grammar.Blameless : Grammar → Prop := Uses UnaryOp.Blameless (fun _ => True) BlamelessStep

theorem Parser.fitting_blameless :
    Fitting UnaryOp.Blameless (fun _ => True) BlamelessStep fun _ p => p.Blameless where
  mono _ := id
  leaf _ _ := trivial
  ref _ := trivial
  custom _ _ := id
  unary hop hp := hp.unary hop
  binary _ hp := hp.binary _
  usesSnoc := trivial
  usesOr := trivial

/-! ## Functions and probes that are at hand -/

theorem MapFunction.blameless_apply (f : MapFunction) (v : Value) : (f.apply v).Blameless := by
  cases f with
  | id | tag label => exact .pure _
  | int =>
    unfold apply
    cases str? v with
    | none => exact .raise nofun
    | some s => exact (Action.Blameless.getOrRaise (by nofun) _).bind fun _ => .pure _
  | neg | sum | product | join | length | reverse | list | tuple | item | flatten =>
    exact .getOrRaise (by nofun) _
  | tap observer => exact Action.Blameless.bind nofun fun _ => .pure v
  | boom message => exact .raise nofun

theorem ResultFunction.blameless_apply (f : ResultFunction) (o : Outcome) (i : Int) :
    (f.apply o i).Blameless := by
  cases f with
  | record observer => exact Action.Blameless.bind nofun fun _ => .pure o
  | shift | shiftFail | span | recover | reject | swap => cases o <;> exact .pure _
  | boomFail =>
    cases o with
    | success index value => exact .pure _
    | failure index expect => exact .raise nofun

namespace Probe

theorem blameless_lazyScript (id : String) (text : Text) (i : Int) (n : Nat) (entries : List ProbeEntry) :
    (lazyScript id text i n entries).Blameless := by
  induction entries generalizing n with
  | nil => exact Script.blameless_done
  | cons entry rest ih =>
    simp only [lazyScript]
    split
    · exact ih (n + 1)
    · cases entry with
      | boom message => exact nofun
      | absolute | relative | fitting => exact ih (n + 1)

theorem blameless_step (probe : Probe) (text : Text) (i : Int) :
    (Script.ofAction (probe.step text i)).Blameless := by
  obtain ⟨id, supply⟩ := probe
  cases supply with
  | lazily entries => exact blameless_lazyScript id text i 1 entries
  | atOnce entries => exact fun h => h.not_unbroken (Script.unbroken_ofOutcomes _)
  | value v =>
    simp only [step]
    cases v.elements? with
    | none => exact nofun
    | some values => exact Script.blameless_done

end Probe

/-! ## Tables without gaps -/

namespace Rules

/-- Every handle that was given out has a body. -/
def Complete (rules : Rules) : Prop := ∀ handle < rules.nextHandle, ∃ body, rules.body? handle = some body

end Rules

namespace Parser

variable {text : Text}

theorem blameless_repeated {body : Int → Script} (hbody : ∀ i, (body i).Blameless) (n : Nat) (i : Int) :
    (repeated body n i).Blameless := by
  induction n generalizing i with
  | zero => exact Script.blameless_unread
  | succ n ih =>
    have hone := (hbody i).change fun o => blameless_requireProgress o i
    have hmore := (hone.pairWith ih).change fun o => Action.Blameless.onValue blameless_consValues o i
    exact hmore.append (Script.not_endsIn_single _)

/-- One level of recursion. -/
theorem Blameless.scriptWith {bound : Handle} {recursive : Handle → Int → Script}
    (hrecursive : ∀ handle < bound, ∀ i, (recursive handle i).Blameless) {n : Nat} {p : Parser}
    (hrefs : p.RefersBelow bound) (hp : p.Blameless) (i : Int) :
    (p.scriptWith text n recursive i).Blameless := by
  induction p generalizing i with
  | leaf l =>
    intro h
    cases Leaf.fault_of_attempt (Script.endsIn_ofResult.mp h)
  | custom step => exact hp text i
  | pair p q ihp ihq => exact (ihp hrefs.2.1 hp.2.1 i).pairWith (ihq hrefs.2.2 hp.2.2)
  | or p q ihp ihq => exact (ihp hrefs.2.1 hp.2.1 i).append (ihq hrefs.2.2 hp.2.2 i)
  | mapOutcome change p ih => exact (ih hrefs.2 hp.2 i).change fun o => hp.1 o i
  | not p ih => exact fun h => ih hrefs.2 hp.2 i (Script.endsIn_negate h)
  | many p ih => exact blameless_repeated (ih hrefs.2 hp.2) n i
  | ref handle => exact hrecursive handle hrefs i

end Parser

namespace Rules

variable {rules : Rules}

theorem Complete.blameless_script (h : rules.Complete) (hclosed : rules.Closed)
    (hrules : rules.All Parser.Blameless) {p : Parser} (hrefs : p.RefersBelow rules.nextHandle)
    (hp : p.Blameless) (text : Text) (n : Nat) (i : Int) : (p.script rules text n i).Blameless := by
  induction n generalizing p i with
  | zero => exact hp.scriptWith (fun _ _ _ => Script.blameless_unread) hrefs i
  | succ n ih =>
    refine hp.scriptWith (fun handle hlt j => ?_) hrefs i
    obtain ⟨body, hbody⟩ := h handle hlt
    rw [hbody]
    exact ih (hclosed handle body hbody) (hrules handle body hbody) j

/-- With a table without gaps, no run of what is blameless meets a reference that has no body. -/
theorem Complete.not_meets_undefinedHandle (h : rules.Complete) (hclosed : rules.Closed)
    (hrules : rules.All Parser.Blameless) {p : Parser} (hrefs : p.RefersBelow rules.nextHandle)
    (hp : p.Blameless) (text : Text) (i : Int) : ¬ p.Meets rules text i .undefinedHandle := by
  intro hmeets
  obtain ⟨n, hends⟩ := Parser.meets_iff_endsIn.mp hmeets
  exact h.blameless_script hclosed hrules hrefs hp text n i hends

end Rules

end Backtrack
